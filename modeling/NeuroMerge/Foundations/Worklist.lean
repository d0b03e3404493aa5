import Mathlib.Data.List.Nodup
import Mathlib.Data.List.Perm.Subperm

/-!
# Searching with a worklist

The invariant of a search that keeps what it has seen and a queue of what it has not
expanded yet. Elements are expanded one after the other, each successor being looked at in
turn; when the queue is empty, what can be reached has been expanded.
-/

namespace NeuroMerge.Worklist

open List

variable {α : Type} {successors : α → List α} {root : α}

def Reaches (successors : α → List α) (root : α) : α → Prop :=
  Relation.ReflTransGen (fun x y => y ∈ successors x) root

/-- What is done and what is in the queue has been seen. -/
structure Search (successors : α → List α) (root : α) (done seen queue : List α) : Prop where
  split : seen.Perm (done ++ queue)
  nodup : seen.Nodup
  start : root ∈ seen
  reached : ∀ x ∈ seen, Reaches successors root x
  closed : ∀ x ∈ done, ∀ y ∈ successors x, y ∈ seen

/-- An element is being expanded, and some successors of it have been looked at. -/
structure Expanding (successors : α → List α) (root : α) (done : List α) (current : α)
    (looked seen queue : List α) : Prop where
  split : seen.Perm (done ++ current :: queue)
  nodup : seen.Nodup
  start : root ∈ seen
  reached : ∀ x ∈ seen, Reaches successors root x
  closed : ∀ x ∈ done, ∀ y ∈ successors x, y ∈ seen
  visible : ∀ y ∈ looked, y ∈ seen

variable {done seen queue looked : List α} {current : α}

theorem Search.single : Search successors root [] [root] [root] where
  split := .rfl
  nodup := nodup_singleton root
  start := mem_singleton_self root
  reached := by
    intro x member
    rw [mem_singleton.mp member]
    exact .refl
  closed := nofun

theorem Search.expand (search : Search successors root done seen (current :: queue)) :
    Expanding successors root done current [] seen queue :=
  ⟨search.split, search.nodup, search.start, search.reached, search.closed, nofun⟩

namespace Expanding

variable {y : α}

theorem seen_before (expanding : Expanding successors root done current looked seen queue) (before : y ∈ seen) :
    Expanding successors root done current (looked ++ [y]) seen queue :=
  { expanding with
    visible := by
      intro x member
      rcases mem_append.mp member with old | new
      · exact expanding.visible x old
      · exact mem_singleton.mp new ▸ before }

theorem discovered (expanding : Expanding successors root done current looked seen queue)
    (isSuccessor : y ∈ successors current) (fresh : y ∉ seen) :
    Expanding successors root done current (looked ++ [y]) (y :: seen) (queue ++ [y]) where
  split := by
    have assoc : done ++ current :: (queue ++ [y]) = (done ++ current :: queue) ++ [y] := by simp
    rw [assoc]
    exact (expanding.split.cons y).trans (perm_append_singleton y _).symm
  nodup := nodup_cons.mpr ⟨fresh, expanding.nodup⟩
  start := mem_cons_of_mem y expanding.start
  reached := by
    intro x member
    cases member with
    | head =>
      have inside : current ∈ seen := expanding.split.mem_iff.mpr (by simp)
      exact (expanding.reached current inside).tail isSuccessor
    | tail _ old => exact expanding.reached x old
  closed := fun x isDone z follows => mem_cons_of_mem y (expanding.closed x isDone z follows)
  visible := by
    intro x member
    rcases mem_append.mp member with old | new
    · exact mem_cons_of_mem y (expanding.visible x old)
    · exact mem_singleton.mp new ▸ mem_cons_self

theorem finish
    (expanding : Expanding successors root done current (successors current) seen queue) :
    Search successors root (done ++ [current]) seen queue where
  split := by
    rw [append_assoc]
    exact expanding.split
  nodup := expanding.nodup
  start := expanding.start
  reached := expanding.reached
  closed := by
    intro x member
    rcases mem_append.mp member with old | new
    · exact expanding.closed x old
    · exact mem_singleton.mp new ▸ expanding.visible

end Expanding

theorem Search.length_lt (search : Search successors root done seen (current :: queue))
    (bound : List α) (bounded : ∀ x, Reaches successors root x → x ∈ bound) : done.length < bound.length := by
  have within : seen.length ≤ bound.length := (search.nodup.subperm fun x member => bounded x (search.reached x member)).length_le
  rw [search.split.length_eq, length_append, length_cons] at within
  omega

theorem Search.nodup_done (search : Search successors root done seen queue) : done.Nodup :=
  (nodup_append.mp (search.split.nodup_iff.mp search.nodup)).1

theorem Search.mem_done_iff (search : Search successors root done seen []) {x : α} : x ∈ done ↔ Reaches successors root x := by
  have same : ∀ {y}, y ∈ seen ↔ y ∈ done := by
    intro y
    rw [search.split.mem_iff, append_nil]
  constructor
  · intro isDone
    exact search.reached x (same.mpr isDone)
  · intro reaches
    induction reaches with
    | refl => exact same.mp search.start
    | tail _ follows ih => exact same.mp (search.closed _ ih _ follows)

/-! ## Marking late

An element is marked when it is taken from the queue, and what has been put there before it was
marked is taken again.
-/

section Late

variable {κ β : Type} [DecidableEq κ] {key : β → κ} {successors : β → List β} {marked : List κ} {queue list : List β} {x : β}

/-- What is taken from the queue until it is empty. -/
inductive Takes (key : β → κ) (successors : β → List β) : List κ → List β → List β → Prop
  | done {marked : List κ} : Takes key successors marked [] []
  | take {marked : List κ} {x : β} {queue list : List β} :
      Takes key successors (key x :: marked)
        (queue ++ (successors x).filter (key · ∉ key x :: marked)) list →
      Takes key successors marked (x :: queue) (x :: list)

/-- What the elements of a list put into the queue. -/
def later (key : β → κ) (successors : β → List β) : List κ → List β → List β
  | _, [] => []
  | marked, x :: list =>
    (successors x).filter (key · ∉ key x :: marked) ++ later key successors (key x :: marked) list

theorem countP_marked_lt {all : List κ} {k : κ} (member : k ∈ all) (fresh : k ∉ marked) :
    all.countP (· ∉ k :: marked) < all.countP (· ∉ marked) := by
  obtain ⟨first, rest, rfl⟩ := append_of_mem member
  have fewer : ∀ part : List κ, part.countP (· ∉ k :: marked) ≤ part.countP (· ∉ marked) :=
    fun part => countP_mono_left fun _ _ => by simp
  have firstFewer := fewer first
  have restFewer := fewer rest
  rw [countP_append, countP_append, countP_cons_of_neg (by simp), countP_cons_of_pos (by simpa using fresh)]
  omega

theorem exists_takes (all : List κ) (closed : ∀ x, key x ∈ all → ∀ y ∈ successors x, key y ∈ all) :
    ∀ (marked : List κ) (queue : List β), (∀ x ∈ queue, key x ∈ all) →
      ∃ list, Takes key successors marked queue list
  | _, [], _ => ⟨[], .done⟩
  | marked, x :: queue, inside => by
    have here := inside x mem_cons_self
    obtain ⟨list, takes⟩ := exists_takes all closed (key x :: marked) (queue ++ (successors x).filter (key · ∉ key x :: marked)) (by
        intro y member
        cases mem_append.mp member with
        | inl later => exact inside y (mem_cons_of_mem _ later)
        | inr new => exact closed x here y (mem_of_mem_filter new))
    exact ⟨x :: list, .take takes⟩
termination_by marked queue => (all.countP (· ∉ marked), queue.countP (key · ∈ marked))
decreasing_by
  by_cases old : key x ∈ marked
  · have same : ∀ k, k ∈ key x :: marked ↔ k ∈ marked := by
      intro k
      rw [mem_cons, or_iff_right_of_imp fun equal : k = key x => equal ▸ old]
    simp only [same]
    refine Prod.Lex.right _ ?_
    rw [countP_append, countP_filter, countP_cons_of_pos (by simpa using old)]
    simp
  · exact Prod.Lex.left _ _ (countP_marked_lt here old)

theorem not_mem_later (member : x ∈ later key successors marked list) : key x ∉ marked := by
  induction list generalizing marked with
  | nil => cases member
  | cons y list ih =>
    rcases mem_append.mp member with here | rest
    · have fresh := of_decide_eq_true (mem_filter.mp here).2
      exact fun old => fresh (mem_cons_of_mem _ old)
    · exact fun old => ih rest (mem_cons_of_mem _ old)

theorem ne_of_mem_later {y : β} (member : x ∈ later key successors marked (y :: list)) : x ≠ y := by
  rintro rfl
  rcases mem_append.mp member with here | rest
  · exact of_decide_eq_true (mem_filter.mp here).2 mem_cons_self
  · exact not_mem_later rest mem_cons_self

end Late

end NeuroMerge.Worklist
