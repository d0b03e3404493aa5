import Mathlib.Data.Finset.Card

/-!
# Walks that end when a set is full

The elements of a list are added to a set until there are more in it than a limit allows.
Whether the walk has reached just as many elements as the limit says depends on what the
set held before.
-/

namespace NeuroMerge

open List

variable {α : Type} [DecidableEq α] {limit : Nat} {set : Finset α}

namespace Cutoff

/-- What is added. The set is looked at after each element, so the first is always added. -/
def walk (limit : Nat) (set : Finset α) : List α → List α
  | [] => []
  | a :: rest => a :: if limit < (insert a set).card then [] else walk limit (insert a set) rest

/-! ## Distinct elements -/

def distinct (items : List α) : List α := items.eraseDups

section Distinct

variable {front items : List α} {a : α}

theorem nodup_distinct (items : List α) : (distinct items).Nodup := by
  cases items with
  | nil => exact nodup_nil
  | cons a rest =>
    rw [distinct, eraseDups_cons, nodup_cons, mem_eraseDups]
    exact ⟨by simp, nodup_distinct _⟩
termination_by items.length
decreasing_by exact Nat.lt_succ_of_le (length_filter_le _ _)

theorem toFinset_distinct (items : List α) : (distinct items).toFinset = items.toFinset := by
  ext a
  simp [distinct]

theorem distinct_append (front rest : List α) : distinct (front ++ rest) = distinct front ++ distinct (rest.removeAll front) :=
  eraseDups_append

theorem length_distinct (items : List α) : (distinct items).length = items.toFinset.card := by
  rw [← toFinset_distinct, toFinset_card_of_nodup (nodup_distinct items)]

theorem toFinset_front (isFront : front <+: items) : front.toFinset = ((distinct items).take front.toFinset.card).toFinset := by
  obtain ⟨rest, rfl⟩ := isFront
  rw [distinct_append, ← length_distinct, take_left, toFinset_distinct]

theorem card_take {n : Nat} (short : n ≤ (distinct items).length) : ((distinct items).take n).toFinset.card = n := by
  rw [toFinset_card_of_nodup ((nodup_distinct items).sublist (take_sublist n _)), length_take, Nat.min_eq_left short]

theorem toFinset_mono (within : front ⊆ items) : front.toFinset ⊆ items.toFinset :=
  fun _ member => mem_toFinset.mpr (within (mem_toFinset.mp member))

theorem card_front_le (isFront : front <+: items) : front.toFinset.card ≤ (distinct items).length := by
  rw [length_distinct]
  exact Finset.card_le_card (toFinset_mono isFront.subset)

theorem exists_shorter {n : Nat} (few : n < front.toFinset.card) :
    ∃ shorter, shorter <+: front ∧ shorter ≠ front ∧ shorter.toFinset.card = n := by
  induction front using List.reverseRecOn with
  | nil => simp at few
  | append_singleton front a ih =>
    have isFront : front <+: front ++ [a] := prefix_append _ _
    have different : front ≠ front ++ [a] := by simp
    have more : (front ++ [a]).toFinset.card ≤ front.toFinset.card + 1 := by
      rw [toFinset_append, toFinset_cons, toFinset_nil, Finset.union_insert, Finset.union_empty]
      exact Finset.card_insert_le _ _
    rcases Nat.lt_or_ge n front.toFinset.card with fewer | enough
    · obtain ⟨shorter, within, -, count⟩ := ih fewer
      refine ⟨shorter, within.trans isFront, fun same => ?_, count⟩
      have long := within.length_le
      rw [same, length_append] at long
      exact Nat.not_succ_le_self _ long
    · exact ⟨front, isFront, different, by omega⟩

end Distinct

/-! ## Where a walk ends -/

section Walk

variable {items front : List α}

theorem walk_front (set : Finset α) (items : List α) : walk limit set items <+: items := by
  induction items generalizing set with
  | nil => exact prefix_refl _
  | cons a rest ih =>
    rw [walk]
    split
    · exact prefix_append [a] rest
    · exact (prefix_cons_inj a).mpr (ih _)

theorem walk_ne_nil (notEmpty : items ≠ []) : walk limit set items ≠ [] := by
  cases items with
  | nil => exact absurd rfl notEmpty
  | cons a rest => exact cons_ne_nil _ _

theorem card_le_of_front (isFront : front <+: walk limit set items)
    (shorter : front ≠ walk limit set items) (started : front ≠ []) : (set ∪ front.toFinset).card ≤ limit := by
  induction items generalizing set front with
  | nil => exact absurd (prefix_nil.mp isFront) started
  | cons a rest ih =>
    cases front with
    | nil => exact absurd rfl started
    | cons b front =>
      rw [walk] at isFront shorter
      obtain ⟨rfl, within⟩ := cons_prefix_cons.mp isFront
      have union : set ∪ (b :: front).toFinset = insert b set ∪ front.toFinset := by
        rw [toFinset_cons, Finset.union_insert, Finset.insert_union]
      rw [union]
      split at within
      · rename_i full
        obtain rfl := prefix_nil.mp within
        simp [full] at shorter
      · rename_i notFull
        cases front with
        | nil => simpa using notFull
        | cons c front =>
          refine ih within (fun same => shorter ?_) (cons_ne_nil _ _)
          rw [if_neg notFull, same]

/-- A walk that has not come to the end of the list has filled the set. -/
theorem card_walk (shorter : walk limit set items ≠ items) : limit < (set ∪ (walk limit set items).toFinset).card := by
  induction items generalizing set with
  | nil => exact absurd rfl shorter
  | cons a rest ih =>
    rw [walk] at shorter ⊢
    rw [toFinset_cons, Finset.union_insert, ← Finset.insert_union]
    split
    · rename_i full
      simpa using full
    · rename_i notFull
      rw [if_neg notFull] at shorter
      exact ih fun same => shorter (by rw [same])

theorem union_take_subset {m n : Nat} (le : m ≤ n) : set ∪ (items.take m).toFinset ⊆ set ∪ (items.take n).toFinset :=
  Finset.union_subset_union_right (toFinset_mono (take_subset_take_left _ le))

def goal (limit : Nat) (items : List α) : Nat := min (distinct items).length limit

/-- The set is not full before the last of these is reached, and it is full once they are all
there, unless there are no others. -/
structure Calibrated (limit : Nat) (set : Finset α) (items : List α) : Prop where
  notBefore : goal limit items ≤ 1 ∨
    (set ∪ ((distinct items).take (goal limit items - 1)).toFinset).card ≤ limit
  notBehind : (distinct items).length ≤ limit ∨
    limit < (set ∪ ((distinct items).take limit).toFinset).card

theorem card_walk_eq_iff (positive : 0 < limit) :
    (walk limit set items).toFinset.card = goal limit items ↔ Calibrated limit set items := by
  have isFront := @walk_front _ _ limit set items
  have reached := toFinset_front isFront
  have bound := card_front_le isFront
  -- the walk reaches what a shorter front has and goes on
  have passes : ∀ n, 0 < n → n < (walk limit set items).toFinset.card → (set ∪ ((distinct items).take n).toFinset).card ≤ limit := by
    intro n some few
    obtain ⟨front, within, shorter, count⟩ := exists_shorter few
    have started : front ≠ [] := fun none => by simp [none] at count; omega
    have elements := toFinset_front (within.trans isFront)
    rw [count] at elements
    rw [← elements]
    exact card_le_of_front within shorter started
  have ends : (walk limit set items).toFinset.card < (distinct items).length →
      limit < (set ∪ ((distinct items).take (walk limit set items).toFinset.card).toFinset).card := by
    intro few
    rw [← reached]
    refine card_walk fun same => ?_
    rw [same, length_distinct] at few
    exact Nat.lt_irrefl _ few
  constructor
  · intro exact
    constructor
    · by_cases one : goal limit items ≤ 1
      · exact .inl one
      · exact .inr (passes _ (by omega) (by omega))
    · by_cases short : (distinct items).length ≤ limit
      · exact .inl short
      · have isLimit : goal limit items = limit := Nat.min_eq_right (by omega)
        have full := ends (by omega)
        rw [exact, isLimit] at full
        exact .inr full
  · rintro ⟨notBefore, notBehind⟩
    rcases Nat.lt_trichotomy (walk limit set items).toFinset.card (goal limit items) with
      fewer | exact | more
    · have within : goal limit items ≤ (distinct items).length := Nat.min_le_left _ _
      have started : 0 < (walk limit set items).toFinset.card := by
        have notEmpty : items ≠ [] := by
          rintro rfl
          simp [goal, distinct] at fewer
        rw [Finset.card_pos, toFinset_nonempty_iff]
        exact walk_ne_nil notEmpty
      rcases notBefore with one | notFull
      · omega
      · have grown := Finset.card_le_card (@union_take_subset _ _ set (distinct items) _ _ (Nat.le_sub_one_of_lt fewer))
        omega
    · exact exact
    · have isLimit : goal limit items = limit := by rw [goal] at more ⊢; omega
      have notFull := passes limit positive (by omega)
      rcases notBehind with short | full
      · rw [goal] at isLimit more
        omega
      · omega

/-- A walk reaches the first distinct elements, as many as the limit says, if and only if the
set is calibrated to it. -/
theorem walk_eq_take_iff (positive : 0 < limit) :
    (walk limit set items).toFinset = ((distinct items).take limit).toFinset ↔ Calibrated limit set items := by
  have reached := toFinset_front (@walk_front _ _ limit set items)
  have wanted : ((distinct items).take limit).toFinset = ((distinct items).take (goal limit items)).toFinset := by
    rw [goal]
    rcases Nat.le_total (distinct items).length limit with short | long
    · rw [Nat.min_eq_left short, take_of_length_le short, take_length]
    · rw [Nat.min_eq_right long]
  have count : ((distinct items).take (goal limit items)).toFinset.card = goal limit items := card_take (Nat.min_le_left _ _)
  rw [← card_walk_eq_iff positive, wanted]
  constructor
  · intro same
    rw [same, count]
  · intro same
    rw [reached, same]

end Walk

/-! ## Several walks -/

section Walks

variable {β : Type} {order : β → List α} {wanted : β → Finset α} {paths : List β}

def walks (limit : Nat) (set : Finset α) : List (List α) → List (List α)
  | [] => []
  | items :: rest =>
    let added := walk limit set items
    added :: walks limit (set ∪ added.toFinset) rest

theorem mem_walks {limit : Nat} {set : Finset α} {lists : List (List α)} {a : α}
    (member : a ∈ (walks limit set lists).flatten) : ∃ items ∈ lists, a ∈ items := by
  induction lists generalizing set with
  | nil => cases member
  | cons items rest ih =>
    rw [walks, flatten_cons, mem_append] at member
    rcases member with here | later
    · exact ⟨items, mem_cons_self, (walk_front set items).subset here⟩
    · obtain ⟨other, isOther, inside⟩ := ih later
      exact ⟨other, mem_cons_of_mem _ isOther, inside⟩

/-- Each walk finds a set that is calibrated to it when all before have reached just what
they should. -/
def Undisturbed (limit : Nat) (order : β → List α) (wanted : β → Finset α) :
    Finset α → List β → Prop
  | _, [] => True
  | set, path :: rest =>
    ((distinct (order path)).take limit).toFinset = wanted path ∧
      Calibrated limit set (order path) ∧ Undisturbed limit order wanted (set ∪ wanted path) rest

theorem walk_eq_wanted_iff (positive : 0 < limit) {items : List α} {target : Finset α} (count : target.card = goal limit items) :
    (walk limit set items).toFinset = target ↔ ((distinct items).take limit).toFinset = target ∧ Calibrated limit set items := by
  constructor
  · intro reached
    have calibrated := (card_walk_eq_iff positive).mp (reached ▸ count)
    exact ⟨((walk_eq_take_iff positive).mpr calibrated).symm.trans reached, calibrated⟩
  · rintro ⟨first, calibrated⟩
    rw [(walk_eq_take_iff positive).mpr calibrated, first]

theorem walks_iff (positive : 0 < limit) (count : ∀ path ∈ paths, (wanted path).card = goal limit (order path)) :
    List.Forall₂ (fun path added => added.toFinset = wanted path) paths
        (walks limit set (paths.map order)) ↔ Undisturbed limit order wanted set paths := by
  induction paths generalizing set with
  | nil => exact iff_of_true .nil trivial
  | cons path rest ih =>
    obtain ⟨here, later⟩ := forall_mem_cons.mp count
    rw [map_cons, walks, forall₂_cons, Undisturbed, ← and_assoc, walk_eq_wanted_iff positive here]
    refine and_congr_right fun exact => ?_
    rw [(walk_eq_wanted_iff positive here).mpr exact]
    exact ih later

end Walks

end Cutoff

end NeuroMerge
