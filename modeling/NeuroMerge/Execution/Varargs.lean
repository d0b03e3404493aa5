import NeuroMerge.Memory.MemoryManager

/-!
# Variadic calls

The arguments that a function has no names for are stored one after the other in an object
of their own. One loop finds out how large it has to be, another one stores them.
-/

namespace NeuroMerge.Execution

open List

open Memory (alignTo)

def getMinBytesForWidth (width : Nat) : Nat := (width + 7) % 2 ^ 32 / 8

namespace Varargs

/-- Where an argument goes if what comes before it ends at `offset`: 64 bit words align
those that are wider than a word. -/
def place (WordSize offset argWidth : Nat) : Nat :=
  if WordSize = 32 then offset
  else if 64 < argWidth then alignTo offset 16 % 2 ^ 32
  else offset

def room (WordSize argWidth : Nat) : Nat :=
  if WordSize = 32 then getMinBytesForWidth argWidth else alignTo argWidth WordSize / 8

/-- The end of an argument. Sums have 32 bits. -/
def advance (WordSize offset argWidth : Nat) : Nat :=
  (place WordSize offset argWidth + room WordSize argWidth) % 2 ^ 32

/-- The first loop: the size of the object, and whether it has to be aligned to 16 bytes. -/
def size (WordSize : Nat) : List Nat → Nat → Bool → Nat × Bool
  | [], size, requires16ByteAlignment => (size, requires16ByteAlignment)
  | argWidth :: rest, offset, requires16ByteAlignment =>
    size WordSize rest (advance WordSize offset argWidth)
      (requires16ByteAlignment || WordSize != 32 && decide (64 < argWidth))

/-- The second loop: the offset that each argument is written to, with its width. -/
def writes (WordSize : Nat) : List Nat → Nat → List (Nat × Nat)
  | [], _ => []
  | argWidth :: rest, offset =>
    (place WordSize offset argWidth, argWidth) ::
      writes WordSize rest (advance WordSize offset argWidth)

def stored (width : Nat) : Nat := if width = 1 then 1 else width / 8

/-- The arguments are apart, aligned as they were sized, and in the object. -/
structure Consistent (WordSize : Nat) (arguments : List Nat) : Prop where
  increasing : (writes WordSize arguments 0).Pairwise fun a b => a.1 < b.1
  apart : (writes WordSize arguments 0).Pairwise fun a b => a.1 + stored a.2 ≤ b.1
  aligned : WordSize = 64 → ∀ a ∈ writes WordSize arguments 0,
    8 ∣ a.1 ∧ (64 < a.2 → 16 ∣ a.1 ∧ (size WordSize arguments 0 false).2 = true)
  inside : ∀ a ∈ writes WordSize arguments 0, a.1 + stored a.2 ≤ (size WordSize arguments 0 false).1

/-!
## The layout without wrapping
-/

def exactPlace (WordSize offset argWidth : Nat) : Nat :=
  if WordSize = 32 then offset
  else if 64 < argWidth then (offset + 15) / 16 * 16
  else offset

def exactRoom (WordSize argWidth : Nat) : Nat :=
  if WordSize = 32 then (argWidth + 7) / 8 else (argWidth + 63) / 64 * 8

def layoutEnd (WordSize : Nat) : List Nat → Nat → Nat
  | [], offset => offset
  | argWidth :: rest, offset =>
    layoutEnd WordSize rest (exactPlace WordSize offset argWidth + exactRoom WordSize argWidth)

/-- Nothing wraps: the layout has less than 2^32 bytes, and so has every argument. -/
structure Fits (WordSize : Nat) (arguments : List Nat) (offset : Nat) : Prop where
  narrow : WordSize = 32 → ∀ argWidth ∈ arguments, argWidth + 7 < 2 ^ 32
  short : layoutEnd WordSize arguments offset < 2 ^ 32

section

variable {WordSize offset argWidth : Nat} {arguments rest : List Nat} {required : Bool}

theorem exactPlace_cases (WordSize offset argWidth : Nat) :
    exactPlace WordSize offset argWidth = offset ∨ exactPlace WordSize offset argWidth = (offset + 15) / 16 * 16 := by
  unfold exactPlace
  split
  · exact .inl rfl
  split
  · exact .inr rfl
  · exact .inl rfl

theorem exactPlace_bounds (WordSize offset argWidth : Nat) :
    offset ≤ exactPlace WordSize offset argWidth ∧ exactPlace WordSize offset argWidth < offset + 16 := by
  rcases exactPlace_cases WordSize offset argWidth with same | rounded <;> omega

theorem exactRoom_bounds (WordSize : Nat) (positive : 0 < argWidth) (argWidth_lt : argWidth < 2 ^ 32) :
    stored argWidth ≤ exactRoom WordSize argWidth ∧ 0 < exactRoom WordSize argWidth ∧ exactRoom WordSize argWidth ≤ 2 ^ 29 := by
  unfold exactRoom stored
  split
  · split <;> omega
  · split <;> omega

theorem place_eq (WordSize argWidth : Nat) (offset_lt : offset < 2 ^ 32) :
    place WordSize offset argWidth = exactPlace WordSize offset argWidth % 2 ^ 32 := by
  unfold place exactPlace
  split
  · exact (Nat.mod_eq_of_lt offset_lt).symm
  split
  · rw [alignTo, Nat.mod_eq_of_lt (show offset + 16 - 1 < 2 ^ 64 by omega)]
    rfl
  · exact (Nat.mod_eq_of_lt offset_lt).symm

theorem room_eq (word : WordSize = 32 ∨ WordSize = 64) (argWidth_lt : argWidth < 2 ^ 32)
    (narrow : WordSize = 32 → argWidth + 7 < 2 ^ 32) : room WordSize argWidth = exactRoom WordSize argWidth := by
  unfold room exactRoom
  split
  · rename_i small
    rw [getMinBytesForWidth, Nat.mod_eq_of_lt (narrow small)]
  · rename_i large
    rw [word.resolve_left large, alignTo, Nat.mod_eq_of_lt (by omega)]
    omega

theorem le_layoutEnd (WordSize : Nat) (arguments : List Nat) (offset : Nat) : offset ≤ layoutEnd WordSize arguments offset := by
  induction arguments generalizing offset with
  | nil => exact Nat.le_refl _
  | cons argWidth rest ih =>
    have after := ih (exactPlace WordSize offset argWidth + exactRoom WordSize argWidth)
    have bounds := exactPlace_bounds WordSize offset argWidth
    rw [layoutEnd]
    omega

theorem place_wrapped (offset_lt : offset < 2 ^ 32) (wraps : 2 ^ 32 ≤ exactPlace WordSize offset argWidth) :
    place WordSize offset argWidth = 0 ∧ 0 < offset := by
  rw [place_eq WordSize argWidth offset_lt]
  rcases exactPlace_cases WordSize offset argWidth with same | rounded <;> omega

variable (word : WordSize = 32 ∨ WordSize = 64)
include word

theorem Fits.first (argWidth_lt : argWidth < 2 ^ 32) (fits : Fits WordSize (argWidth :: rest) offset) :
    place WordSize offset argWidth = exactPlace WordSize offset argWidth ∧
      advance WordSize offset argWidth =
        exactPlace WordSize offset argWidth + exactRoom WordSize argWidth ∧ Fits WordSize rest (advance WordSize offset argWidth) := by
  have le := le_layoutEnd WordSize rest (exactPlace WordSize offset argWidth + exactRoom WordSize argWidth)
  have short : layoutEnd WordSize rest (exactPlace WordSize offset argWidth + exactRoom WordSize argWidth) < 2 ^ 32 := fits.short
  have above := (exactPlace_bounds WordSize offset argWidth).1
  have placed : place WordSize offset argWidth = exactPlace WordSize offset argWidth := by
    rw [place_eq WordSize argWidth (by omega), Nat.mod_eq_of_lt (by omega)]
  have roomy : room WordSize argWidth = exactRoom WordSize argWidth :=
    room_eq word argWidth_lt fun small => fits.narrow small argWidth mem_cons_self
  have advanced : advance WordSize offset argWidth = exactPlace WordSize offset argWidth + exactRoom WordSize argWidth := by
    rw [advance, placed, roomy, Nat.mod_eq_of_lt (Nat.lt_of_le_of_lt le short)]
  refine ⟨placed, advanced, fun small other member => ?_, ?_⟩
  · exact fits.narrow small other (mem_cons_of_mem _ member)
  · rw [advanced]
    exact short

theorem size_of_fits (valid : ∀ argWidth ∈ arguments, 0 < argWidth ∧ argWidth < 2 ^ 32) (fits : Fits WordSize arguments offset) :
    (size WordSize arguments offset required).1 = layoutEnd WordSize arguments offset := by
  induction arguments generalizing offset required with
  | nil => rfl
  | cons argWidth rest ih =>
    rw [forall_mem_cons] at valid
    obtain ⟨-, advanced, later⟩ := fits.first word valid.1.2
    rw [size, ih valid.2 later, advanced, layoutEnd]

theorem writes_of_fits (valid : ∀ argWidth ∈ arguments, 0 < argWidth ∧ argWidth < 2 ^ 32) (fits : Fits WordSize arguments offset) :
    (∀ a ∈ writes WordSize arguments offset,
        offset ≤ a.1 ∧ a.1 + stored a.2 ≤ layoutEnd WordSize arguments offset) ∧
      (writes WordSize arguments offset).Pairwise fun a b => a.1 < b.1 ∧ a.1 + stored a.2 ≤ b.1 := by
  induction arguments generalizing offset with
  | nil => exact ⟨by simp [writes], .nil⟩
  | cons argWidth rest ih =>
    rw [forall_mem_cons] at valid
    obtain ⟨placed, advanced, later⟩ := fits.first word valid.1.2
    obtain ⟨above, apart⟩ := ih valid.2 later
    have bounds := exactPlace_bounds WordSize offset argWidth
    have roomy := exactRoom_bounds WordSize valid.1.1 valid.1.2
    have le := le_layoutEnd WordSize rest (advance WordSize offset argWidth)
    rw [writes, layoutEnd, ← advanced, forall_mem_cons, pairwise_cons]
    refine ⟨⟨by dsimp only; omega, fun a member => ?_⟩, fun b member => ?_, apart⟩
    · have := above a member
      omega
    · have := above b member
      dsimp only
      omega

theorem writes_aligned (required : Bool) (wide : WordSize = 64) (start : 8 ∣ offset)
    (valid : ∀ argWidth ∈ arguments, 0 < argWidth ∧ argWidth < 2 ^ 32) (fits : Fits WordSize arguments offset) :
    (required = true → (size WordSize arguments offset required).2 = true) ∧
      ∀ a ∈ writes WordSize arguments offset, 8 ∣ a.1 ∧ (64 < a.2 → 16 ∣ a.1 ∧ (size WordSize arguments offset required).2 = true) := by
  induction arguments generalizing offset required with
  | nil => exact ⟨id, by simp [writes]⟩
  | cons argWidth rest ih =>
    rw [forall_mem_cons] at valid
    obtain ⟨placed, advanced, later⟩ := fits.first word valid.1.2
    have aligned : 8 ∣ exactPlace WordSize offset argWidth ∧ 8 ∣ exactRoom WordSize argWidth ∧
        (64 < argWidth → 16 ∣ exactPlace WordSize offset argWidth) := by
      subst wide
      unfold exactPlace exactRoom
      simp only [show ¬ 64 = 32 by decide, if_false]
      split <;> omega
    obtain ⟨kept, others⟩ := ih (required || WordSize != 32 && decide (64 < argWidth)) (by omega) valid.2 later
    rw [writes, size, forall_mem_cons, placed]
    refine ⟨fun set => kept (by rw [set, Bool.true_or]), ⟨aligned.1, fun large => ?_⟩, others⟩
    refine ⟨aligned.2.2 large, kept ?_⟩
    subst wide
    simp [large]

theorem fits_of_increasing (offset_lt : offset < 2 ^ 32) (valid : ∀ argWidth ∈ arguments, 0 < argWidth ∧ argWidth < 2 ^ 32)
    (increasing : (writes WordSize arguments offset).Pairwise fun a b => a.1 < b.1)
    (above : 0 < offset → ∀ a ∈ writes WordSize arguments offset, 0 < a.1)
    (inside : ∀ a ∈ writes WordSize arguments offset,
      a.1 + stored a.2 ≤ (size WordSize arguments offset required).1) : Fits WordSize arguments offset := by
  induction arguments generalizing offset required with
  | nil => exact ⟨by simp, offset_lt⟩
  | cons argWidth rest ih =>
    rw [forall_mem_cons] at valid
    rw [writes, pairwise_cons] at increasing
    rw [writes, forall_mem_cons, size] at inside
    rw [writes, forall_mem_cons] at above
    have bounds := exactRoom_bounds WordSize valid.1.1 valid.1.2
    have placed : exactPlace WordSize offset argWidth < 2 ^ 32 := by
      by_contra wraps
      obtain ⟨null, positive⟩ := place_wrapped offset_lt (Nat.le_of_not_lt wraps)
      have first := (above positive).1
      omega
    have place_exact : place WordSize offset argWidth = exactPlace WordSize offset argWidth :=
      (place_eq WordSize argWidth offset_lt).trans (Nat.mod_eq_of_lt placed)
    have later : Fits WordSize rest (advance WordSize offset argWidth) := by
      refine ih (Nat.mod_lt _ (by decide)) valid.2 increasing.2 (fun _ a member => ?_) inside.2
      exact Nat.lt_of_le_of_lt (Nat.zero_le _) (increasing.1 a member)
    have ends : place WordSize offset argWidth + stored argWidth ≤ layoutEnd WordSize rest (advance WordSize offset argWidth) := by
      rw [← size_of_fits word valid.2 later]
      exact inside.1
    -- the next argument, or the end of the object, is behind this one
    have behind : place WordSize offset argWidth < advance WordSize offset argWidth + 16 ∧
        (WordSize = 32 → place WordSize offset argWidth < advance WordSize offset argWidth ∨ stored argWidth = 0) := by
      cases rest with
      | nil =>
        rw [layoutEnd] at ends
        omega
      | cons next others =>
        have before := increasing.1 _ mem_cons_self
        rw [(later.first word (valid.2 next mem_cons_self).2).1] at before
        have close := exactPlace_bounds WordSize (advance WordSize offset argWidth) next
        refine ⟨by omega, fun small => ?_⟩
        rw [exactPlace, if_pos small] at before
        exact .inl before
    have narrow (small : WordSize = 32) : argWidth + 7 < 2 ^ 32 := by
      by_contra wide
      have nothing : room WordSize argWidth = 0 := by
        rw [room, if_pos small, getMinBytesForWidth]
        omega
      have same : advance WordSize offset argWidth = place WordSize offset argWidth := by
        rw [advance, nothing, Nat.add_zero, place_exact, Nat.mod_eq_of_lt placed]
      have some : stored argWidth ≠ 0 := by
        unfold stored
        split <;> omega
      omega
    have grows : advance WordSize offset argWidth = exactPlace WordSize offset argWidth + exactRoom WordSize argWidth := by
      have value : advance WordSize offset argWidth = (exactPlace WordSize offset argWidth + exactRoom WordSize argWidth) % 2 ^ 32 := by
        rw [advance, place_exact, room_eq word valid.1.2 narrow]
      omega
    refine ⟨fun small => List.forall_mem_cons.mpr ⟨narrow small, later.narrow small⟩, ?_⟩
    rw [layoutEnd, ← grows]
    exact later.short

/-- The two loops agree on a layout if and only if it has less than 2^32 bytes. -/
theorem consistent_iff (valid : ∀ argWidth ∈ arguments, 0 < argWidth ∧ argWidth < 2 ^ 32) :
    Consistent WordSize arguments ↔ Fits WordSize arguments 0 := by
  constructor
  · intro consistent
    exact fits_of_increasing word (by decide) valid consistent.increasing
      (fun positive => absurd positive (Nat.lt_irrefl 0)) consistent.inside
  · intro fits
    obtain ⟨bounds, apart⟩ := writes_of_fits word valid fits
    refine ⟨apart.imp fun both => both.1, apart.imp fun both => both.2, fun wide => ?_, ?_⟩
    · exact (writes_aligned word false wide (Nat.dvd_zero 8) valid fits).2
    · rw [size_of_fits word valid fits]
      exact fun a member => (bounds a member).2

end

theorem wide_arguments_overrun :
    ¬ Consistent 64 (List.replicate 4096 8388600) := by
  intro consistent
  have inside := consistent.inside (0, 8388600) (.head _)
  have size : (size 64 (List.replicate 4096 8388600) 0 false).1 = 0 := by decide +kernel
  rw [size] at inside
  exact absurd inside (by decide)

theorem consistent_iff_sample :
    writes 64 [32, 128, 64] 0 = [(0, 32), (16, 128), (32, 64)] ∧ Fits 64 [32, 128, 64] 0 ∧
      Consistent 64 [32, 128, 64] := by
  have fits : Fits 64 [32, 128, 64] 0 := ⟨nofun, by decide⟩
  exact ⟨by decide, fits, (consistent_iff (.inr rfl) (by decide)).mpr fits⟩

end Varargs

end NeuroMerge.Execution
