import NeuroMerge.Foundations.Fuel
import NeuroMerge.Foundations.Worklist
import NeuroMerge.Graph.ProgramGraph

/-!
# Serialized instructions

`SerializeInstructionsInProgramGraph` lists the instructions of each function. A join point comes
up once for each way to it that is found before its turn.
-/

namespace NeuroMerge.Graph.Serializer

open List Worklist

inductive Fault where
  | outOfFuel

/-- `forward_control_edges` -/
def forwardControlEdges (graph : ProgramGraph) (node : Int) : List Int :=
  (graph.edge.filter fun edge => edge.flow = .CONTROL ∧ edge.source = node).map Edge.target

/-- `function_entries_to_visit`: the program root has the index 0. -/
def functionEntriesToVisit (graph : ProgramGraph) : List Int :=
  (graph.edge.filter fun edge => edge.flow = .CALL ∧ edge.source = 0).map Edge.target

section

variable (edges : Int → List Int) (maxNodes : Nat)

/-- The loop of `SerializeInstructionsInFunction`. -/
def serializeLoop : Nat → List Int → List Int → List Int → Except Fault (Bool × List Int)
  | 0, _, _, _ => throw .outOfFuel
  | _ + 1, _, [], serialized => pure (false, serialized)
  | fuel + 1, visited, node :: q, serialized =>
    let visited := node :: visited
    let serialized := serialized ++ [node]
    if maxNodes ≤ serialized.length then pure (true, serialized)
    else serializeLoop fuel visited (q ++ (edges node).filter (· ∉ visited)) serialized

def SerializeInstructionsInFunction (fuel : Nat) (root : Int) (serialized : List Int) :
    Except Fault (Bool × List Int) :=
  serializeLoop edges maxNodes fuel [] [root] serialized

def serializeFunctions (fuel : Nat) : List Int → List Int → Except Fault (List Int)
  | [], serialized => pure serialized
  | entry :: entries, serialized => do
    let (full, serialized) ← SerializeInstructionsInFunction edges maxNodes fuel entry serialized
    if full then pure serialized else serializeFunctions fuel entries serialized

/-- The nodes in the order of a depth-first search that still has to visit those on the stack. -/
inductive DepthFirst : List Int → List Int → List Int → Prop
  | done {visited : List Int} : DepthFirst visited [] []
  | again {visited stack listing : List Int} {node : Int} : node ∈ visited →
      DepthFirst visited stack listing → DepthFirst visited (node :: stack) listing
  | visit {visited stack listing : List Int} {node : Int} : node ∉ visited →
      DepthFirst (node :: visited) (edges node ++ stack) listing →
      DepthFirst visited (node :: stack) (node :: listing)

end

def SerializeInstructionsInProgramGraph (fuel : Nat) (graph : ProgramGraph) (maxNodes : Nat) :
    Except Fault (List Int) :=
  serializeFunctions (forwardControlEdges graph) maxNodes fuel (functionEntriesToVisit graph) []

/-- The depth-first listings of the functions, one after the other. -/
def Listings (graph : ProgramGraph) : List (List Int) → Prop :=
  List.Forall₂ (DepthFirst (forwardControlEdges graph) [] [·]) (functionEntriesToVisit graph)

def ListsDepthFirst (graph : ProgramGraph) (maxNodes : Nat) (serialized : List Int) : Prop :=
  ∃ listings, Listings graph listings ∧ serialized = listings.flatten.take maxNodes

/-- An entry, followed by the successors that the nodes of the listing have not come up before. -/
def queued (edges : Int → List Int) (entry : Int) (listing : List Int) : List Int :=
  entry :: later id edges [] listing

variable {edges : Int → List Int} {visited queue stack list listing : List Int}

theorem mem_of_take_eq_cons {n : Nat} {x : Int} (same : list.take n = x :: listing) : x ∈ list :=
  mem_of_mem_take (same ▸ mem_cons_self)

section Agreement

variable {own : Int → Prop} (closed : ∀ x, own x → ∀ y ∈ edges x, own y)
include closed

theorem DepthFirst.all (depthFirst : DepthFirst edges visited stack listing) (inside : ∀ x ∈ stack, own x) : ∀ x ∈ listing, own x := by
  induction depthFirst with
  | done => exact nofun
  | again _ _ ih => exact ih fun x member => inside x (mem_cons_of_mem _ member)
  | visit _ _ ih =>
    have here := inside _ mem_cons_self
    refine forall_mem_cons.mpr ⟨here, ih fun x member => ?_⟩
    cases mem_append.mp member with
    | inl new => exact closed _ here x new
    | inr later => exact inside x (mem_cons_of_mem _ later)

theorem later_all (inside : ∀ x ∈ list, own x) : ∀ x ∈ later id edges visited list, own x := by
  induction list generalizing visited with
  | nil => exact nofun
  | cons y list ih =>
    obtain ⟨here, rest⟩ := forall_mem_cons.mp inside
    intro x member
    cases mem_append.mp member with
    | inl new => exact closed y here x (mem_of_mem_filter new)
    | inr later => exact ih rest x later

theorem Takes.all (takes : Takes id edges visited queue list) (inside : ∀ x ∈ queue, own x) : ∀ x ∈ list, own x := by
  induction takes with
  | done => exact nofun
  | take _ ih =>
    have here := inside _ mem_cons_self
    refine forall_mem_cons.mpr ⟨here, ih fun x member => ?_⟩
    cases mem_append.mp member with
    | inl later => exact inside x (mem_cons_of_mem _ later)
    | inr new => exact closed _ here x (mem_of_mem_filter new)

/-- A listing agrees with what is taken as far as it agrees with what its nodes queue. -/
theorem agreement {others taken expected : List Int} (takes : Takes id edges visited queue list)
    (inside : ∀ x ∈ queue, own x) (listed : ∀ x ∈ listing, own x)
    (othersOut : ∀ x ∈ others, ¬ own x) (takenOut : ∀ x ∈ taken, ¬ own x) (expectedOut : ∀ x ∈ expected, ¬ own x)
    (rest : ∀ n, taken.take n = others.take n ↔ expected.take n = others.take n) (n : Nat) :
    (list ++ taken).take n = (listing ++ others).take n ↔
      (queue ++ later id edges visited listing ++ expected).take n = (listing ++ others).take n := by
  induction listing generalizing visited queue list n with
  | nil =>
    cases takes with
    | done => exact rest n
    | @take _ x queue list takes =>
      cases n with
      | zero => exact Iff.rfl
      | succ n =>
        have absent : ∀ tail, x :: tail ≠ others.take (n + 1) := fun tail same =>
          othersOut x (mem_of_take_eq_cons same.symm) (inside x mem_cons_self)
        exact iff_of_false (absent _) (absent _)
  | cons y listing ih =>
    obtain ⟨here, listedRest⟩ := forall_mem_cons.mp listed
    cases n with
    | zero => exact Iff.rfl
    | succ n =>
      cases takes with
      | done =>
        refine iff_of_false (fun same => ?_) (fun same => ?_)
        · exact takenOut y (mem_of_take_eq_cons same) here
        · cases mem_append.mp (mem_of_take_eq_cons same) with
          | inl again => exact ne_of_mem_later again rfl
          | inr out => exact expectedOut y out here
      | @take _ x queue list takes =>
        by_cases same : x = y
        · subst same
          have next := ih takes (by
            intro z member
            cases mem_append.mp member with
            | inl later => exact inside z (mem_cons_of_mem _ later)
            | inr new => exact closed x here z (mem_of_mem_filter new)) listedRest n
          simpa [later] using next
        · have different : ∀ first second, x :: first ≠ y :: second := fun _ _ equal => same (cons_eq_cons.mp equal).1
          exact iff_of_false (different _ _) (different _ _)

end Agreement

theorem serializeLoop_spec {maxNodes fuel : Nat} {serialized : List Int}
    (takes : Takes id edges visited queue list) (room : serialized.length < maxNodes) (enough : list.length < fuel) :
    serializeLoop edges maxNodes fuel visited queue serialized =
      .ok (decide (maxNodes ≤ (serialized ++ list).length), (serialized ++ list).take maxNodes) := by
  induction takes generalizing fuel serialized with
  | done =>
    obtain ⟨fuel, rfl⟩ : ∃ more, fuel = more + 1 := ⟨fuel - 1, by simp at enough; omega⟩
    rw [serializeLoop, append_nil, take_of_length_le room.le, decide_eq_false (by omega)]
    rfl
  | @take visited node queue list _ ih =>
    obtain ⟨fuel, rfl⟩ : ∃ more, fuel = more + 1 := ⟨fuel - 1, by simp at enough; omega⟩
    have longer : serialized ++ node :: list = serialized ++ [node] ++ list := by simp
    rw [serializeLoop, longer]
    by_cases full : maxNodes ≤ (serialized ++ [node]).length
    · have exactly : maxNodes = (serialized ++ [node]).length := by
        rw [length_append, length_singleton] at full ⊢
        omega
      rw [if_pos full, decide_eq_true (by rw [length_append]; omega), exactly, take_left]
      rfl
    · rw [if_neg full]
      exact ih (by omega) (by simpa using enough)

theorem serializeFunctions_spec {maxNodes : Nat} {serialized entries : List Int} {lists : List (List Int)}
    (takes : List.Forall₂ (fun entry => Takes id edges [] [entry]) entries lists) (room : serialized.length < maxNodes) :
    Returns (fun fuel => serializeFunctions edges maxNodes fuel entries serialized) ((serialized ++ lists.flatten).take maxNodes) := by
  induction takes generalizing serialized with
  | nil =>
    rw [flatten_nil, append_nil, take_of_length_le room.le]
    exact .of_eq fun fuel => rfl
  | @cons entry list entries lists first _ ih =>
    have one : Returns (fun fuel =>
        SerializeInstructionsInFunction edges maxNodes fuel entry serialized) _ :=
      ⟨list.length + 1, fun fuel enough => serializeLoop_spec first room enough⟩
    refine .bind one ?_
    rw [flatten_cons, ← append_assoc]
    by_cases full : maxNodes ≤ (serialized ++ list).length
    · rw [take_append_of_le_length full]
      exact .of_eq fun fuel => if_pos (decide_eq_true full)
    · rw [take_of_length_le (by omega)]
      exact .congr (fun fuel => if_neg (by simpa using full)) (ih (by omega))

def Inside (edges : Int → List Int) : List Int → List (List Int) → Prop :=
  List.Forall₂ fun entry list => ∀ x ∈ list, Reaches edges entry x

theorem Inside.exists_entry {entries : List Int} {lists : List (List Int)}
    (inside : Inside edges entries lists) {x : Int} (member : x ∈ lists.flatten) : ∃ entry ∈ entries, Reaches edges entry x := by
  induction inside with
  | nil => cases member
  | @cons entry list entries lists first _ ih =>
    cases mem_append.mp (flatten_cons ▸ member) with
    | inl here => exact ⟨entry, mem_cons_self, first x here⟩
    | inr later =>
      obtain ⟨other, its, reaches⟩ := ih later
      exact ⟨other, mem_cons_of_mem _ its, reaches⟩

theorem closed (entry : Int) : ∀ x, Reaches edges entry x → ∀ y ∈ edges x, Reaches edges entry y :=
  fun _ reaches _ follows => reaches.tail follows

theorem starts (entry : Int) : ∀ x ∈ [entry], Reaches edges entry x := by
  intro x member
  rw [mem_singleton.mp member]
  exact .refl

theorem Inside.queued {entries : List Int} {lists : List (List Int)} (inside : Inside edges entries lists) :
    Inside edges entries (List.zipWith (Serializer.queued edges) entries lists) := by
  induction inside with
  | nil => exact .nil
  | @cons entry list _ _ first _ ih =>
    exact .cons (forall_mem_cons.mpr ⟨.refl, later_all (closed entry) first⟩) ih

def Apart (edges : Int → List Int) (entries : List Int) : Prop :=
  entries.Pairwise fun first second => ∀ x, Reaches edges first x → ¬ Reaches edges second x

theorem listings_agree {entries : List Int} {lists listings : List (List Int)}
    (takes : List.Forall₂ (fun entry => Takes id edges [] [entry]) entries lists)
    (listed : List.Forall₂ (fun entry => DepthFirst edges [] [entry]) entries listings) (apart : Apart edges entries) (n : Nat) :
    lists.flatten.take n = listings.flatten.take n ↔
      (List.zipWith (queued edges) entries listings).flatten.take n = listings.flatten.take n := by
  induction takes generalizing listings n with
  | nil =>
    cases listed
    exact Iff.rfl
  | @cons entry list entries lists first takes ih =>
    obtain ⟨listing, listings, firstListed, rest, rfl⟩ := forall₂_cons_left_iff.mp listed
    obtain ⟨others, apart⟩ := pairwise_cons.mp apart
    have out : ∀ lists, Inside edges entries lists → ∀ x ∈ lists.flatten, ¬ Reaches edges entry x := by
      intro lists inside x member reaches
      obtain ⟨other, its, reachesOther⟩ := inside.exists_entry member
      exact others other its x reaches reachesOther
    have inListings : Inside edges entries listings := rest.imp fun entry _ its => its.all (closed entry) (starts entry)
    have inLists : Inside edges entries lists := takes.imp fun entry _ its => Takes.all (closed entry) its (starts entry)
    exact agreement (closed entry) first (starts entry) (firstListed.all (closed entry) (starts entry))
      (out _ inListings) (out _ inLists) (out _ inListings.queued) (ih rest apart) n

/-- The instructions are listed depth-first if and only if the listing is the same as that of what
its nodes queue, as far as the limit goes; the limit 0 lets one node through. -/
theorem serialize_iff (graph : ProgramGraph) (maxNodes : Nat)
    (apart : Apart (forwardControlEdges graph) (functionEntriesToVisit graph)) :
    ∃ serialized, Returns (fun fuel => SerializeInstructionsInProgramGraph fuel graph maxNodes)
        serialized ∧
      (ListsDepthFirst graph maxNodes serialized ↔
        (maxNodes = 0 → functionEntriesToVisit graph = []) ∧
        ∃ listings, Listings graph listings ∧
          (List.zipWith (queued (forwardControlEdges graph)) (functionEntriesToVisit graph)
            listings).flatten.take maxNodes = listings.flatten.take maxNodes) := by
  have one : ∀ entry, ∃ list, Takes id (forwardControlEdges graph) [] [entry] list := by
    intro entry
    refine exists_takes (entry :: graph.edge.map Edge.target) (fun x _ y follows => ?_) []
      [entry] (by simp)
    obtain ⟨edge, member, rfl⟩ := mem_map.mp follows
    exact mem_cons_of_mem _ (mem_map_of_mem (mem_of_mem_filter member))
  obtain ⟨lists, takes⟩ : ∃ lists, List.Forall₂
      (fun entry => Takes id (forwardControlEdges graph) [] [entry])
      (functionEntriesToVisit graph) lists := by
    induction functionEntriesToVisit graph with
    | nil => exact ⟨[], .nil⟩
    | cons entry entries ih =>
      obtain ⟨list, takes⟩ := one entry
      obtain ⟨lists, rest⟩ := ih
      exact ⟨list :: lists, .cons takes rest⟩
  rcases Nat.eq_zero_or_pos maxNodes with rfl | positive
  · cases visit : functionEntriesToVisit graph with
    | nil =>
      have listed : Listings graph [] := by
        rw [Listings, visit]
        exact .nil
      refine ⟨[], .of_eq fun fuel => ?_, iff_of_true ⟨[], listed, rfl⟩ ⟨fun _ => rfl, [], listed, rfl⟩⟩
      rw [SerializeInstructionsInProgramGraph, visit]
      rfl
    | cons entry entries =>
      refine ⟨[entry], ⟨1, fun fuel enough => ?_⟩, iff_of_false ?_ ?_⟩
      · obtain ⟨fuel, rfl⟩ : ∃ more, fuel = more + 1 := ⟨fuel - 1, by omega⟩
        simp only [SerializeInstructionsInProgramGraph, visit]
        rfl
      · rintro ⟨listings, _, same⟩
        cases same
      · rintro ⟨none, _⟩
        cases none rfl
  · refine ⟨_, serializeFunctions_spec takes (by simpa using positive), ?_⟩
    constructor
    · rintro ⟨listings, listed, same⟩
      exact ⟨fun zero => absurd zero positive.ne', listings, listed,
        (listings_agree takes listed apart maxNodes).mp same⟩
    · rintro ⟨_, listings, listed, same⟩
      exact ⟨listings, listed, (listings_agree takes listed apart maxNodes).mpr same⟩

def oneFunction (edges : List (Int × Int)) : ProgramGraph where
  node := List.replicate 4 ⟨.INSTRUCTION, "", 0, 0, none⟩
  edge := ⟨.CALL, 0, 0, 1, none⟩ :: edges.map fun edge => ⟨.CONTROL, 0, edge.1, edge.2, none⟩
  function := [⟨"f", 0, none⟩]
  module := [⟨"m", none⟩]
  features := none

theorem serialize_iff_sample : ∃ serialized, Returns (fun fuel =>
      SerializeInstructionsInProgramGraph fuel (oneFunction [(1, 2), (2, 1)]) 5) serialized ∧
    ListsDepthFirst (oneFunction [(1, 2), (2, 1)]) 5 serialized := by
  obtain ⟨serialized, returns, right⟩ :=
    serialize_iff (oneFunction [(1, 2), (2, 1)]) 5 (pairwise_singleton _ _)
  refine ⟨serialized, returns, right.mpr ⟨nofun, [[1, 2]], .cons ?_ .nil, by decide⟩⟩
  exact .visit (by decide) (.visit (by decide) (.again (by decide) .done))

theorem DepthFirst.nodup (depthFirst : DepthFirst edges visited stack listing) : listing.Nodup ∧ ∀ x ∈ listing, x ∉ visited := by
  induction depthFirst with
  | done => exact ⟨.nil, nofun⟩
  | again _ _ ih => exact ih
  | visit fresh _ ih =>
    obtain ⟨nodup, new⟩ := ih
    refine ⟨nodup_cons.mpr ⟨fun again => new _ again mem_cons_self, nodup⟩, forall_mem_cons.mpr ⟨fresh, fun x member old => ?_⟩⟩
    exact new x member (mem_cons_of_mem _ old)

/-- Behind an `if` without `else`, the node 3 is listed twice. -/
theorem join_listed_twice :
    Apart (forwardControlEdges (oneFunction [(1, 2), (1, 3), (2, 3)]))
      (functionEntriesToVisit (oneFunction [(1, 2), (1, 3), (2, 3)])) ∧
    SerializeInstructionsInProgramGraph 5 (oneFunction [(1, 2), (1, 3), (2, 3)]) 10 =
      .ok [1, 2, 3, 3] ∧
    ¬ ListsDepthFirst (oneFunction [(1, 2), (1, 3), (2, 3)]) 10 [1, 2, 3, 3] := by
  refine ⟨pairwise_singleton _ _, rfl, ?_⟩
  rintro ⟨listings, listed, same⟩
  obtain ⟨listing, rest, depthFirst, none, rfl⟩ := forall₂_cons_left_iff.mp listed
  cases none
  rw [flatten_cons, flatten_nil, append_nil] at same
  have nodup : ([1, 2, 3, 3] : List Int).Nodup := same ▸ depthFirst.nodup.1.take
  exact absurd nodup (by decide)

end NeuroMerge.Graph.Serializer
