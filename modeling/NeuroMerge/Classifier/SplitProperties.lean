import NeuroMerge.Classifier.Split
import Mathlib.Tactic.IntervalCases

/-!
# When a split is a partition

The tests for the validation set and for the test set share a bound, so a graph on it is
copied into both. When whole programs are split, the first set that has the name counts.
-/

namespace NeuroMerge.Classifier

open List

variable {n i : Nat}

section Ratios

theorem train_lt_valEnd : TRAIN_SET_RATIO < valEnd := by decide +kernel

theorem ratio_le_train (few : n ≤ 5) (lt : i < n) : ratio i n ≤ TRAIN_SET_RATIO := by
  have all : ∀ n ≤ 5, ∀ i < n, ratio i n ≤ TRAIN_SET_RATIO := by decide +kernel
  exact all n few i lt

theorem round_natCast_bounds (positive : 0 < n) :
    (n : ℚ) * (999 / 1000) ≤ Binary64.round n ∧ Binary64.round n ≤ (n : ℚ) * (1001 / 1000) := by
  have one : (1 : ℚ) ≤ n := by exact_mod_cast positive
  have normal : (2 : ℚ) ^ (-1022 : ℤ) ≤ n := le_trans (zpow_le_one_of_nonpos₀ (by norm_num) (by norm_num)) one
  have near := abs_le.mp (Binary64.abs_round_sub_le normal)
  constructor <;> linarith

theorem train_lt_ratio_last (many : 6 ≤ n) : TRAIN_SET_RATIO < ratio (n - 1) n := by
  obtain ⟨k, rfl⟩ := Nat.exists_eq_add_of_le' many
  have first := (round_natCast_bounds (n := k + 6 - 1) (by omega)).1
  have second := (round_natCast_bounds (n := k + 6) (by omega)).2
  have less : ((k + 6 - 1 : Nat) : ℚ) = k + 5 := by
    norm_num
  push_cast at first second
  have positive : 0 < Binary64.round ((k : ℚ) + 6) := by
    have lower := (round_natCast_bounds (n := k + 6) (by omega)).1
    push_cast at lower
    linarith
  have quotient : (81 : ℚ) / 100 ≤ Binary64.round ((k : ℚ) + 5) / Binary64.round ((k : ℚ) + 6) := by
    rw [le_div_iff₀ positive]
    linarith
  have rounded := Binary64.round_mono quotient
  have below : TRAIN_SET_RATIO < Binary64.round (81 / 100) := by decide +kernel
  rw [ratio, less]
  push_cast
  exact below.trans_le rounded

end Ratios

def ExactlyOne (graph_fnames : List (List Char))
    (result : Except PyError (List (Part × List Char))) : Prop :=
  ∃ copies, result = .ok copies ∧ ∀ graph ∈ graph_fnames, ∃! part, (part, graph) ∈ copies

def AtMostOne (result : Except PyError (List (Part × List Char))) : Prop :=
  ∃ copies, result = .ok copies ∧
    ∀ graph part part', (part, graph) ∈ copies → (part', graph) ∈ copies → part = part'

def NamesApart (graphName : List Char → Except PyError (List Char))
    (result : Except PyError (List (Part × List Char))) : Prop :=
  ∃ copies, result = .ok copies ∧
    ∀ graph graph' part part' name, (part, graph) ∈ copies → (part', graph') ∈ copies →
      graphName graph = .ok name → graphName graph' = .ok name → part = part'

variable {smaller_ratio : ℚ}

section OneByOne

def parts (r : ℚ) : List Part :=
  (if r ≤ TRAIN_SET_RATIO then [.train] else []) ++
    ((if TRAIN_SET_RATIO < r ∧ r ≤ valEnd then [.val] else []) ++
      if valEnd ≤ r then [.test] else [])

theorem existsUnique_mem_parts (r : ℚ) : (∃! part, part ∈ parts r) ↔ r ≠ valEnd := by
  have bounds := train_lt_valEnd
  have cases_ : parts r = [.train] ∧ r ≠ valEnd ∨ parts r = [.val] ∧ r ≠ valEnd ∨
      parts r = [.val, .test] ∧ r = valEnd ∨ parts r = [.test] ∧ r ≠ valEnd := by
    cases lt_trichotomy r valEnd with
    | inl below =>
      cases le_or_gt r TRAIN_SET_RATIO with
      | inl train =>
        refine .inl ⟨?_, below.ne⟩
        simp [parts, train, not_lt.mpr train, not_le.mpr below]
      | inr val =>
        refine .inr (.inl ⟨?_, below.ne⟩)
        simp [parts, not_le.mpr val, val, below.le, not_le.mpr below]
    | inr atLeast =>
      cases atLeast with
      | inl bound =>
        subst bound
        exact .inr (.inr (.inl ⟨by simp [parts, not_le.mpr bounds, bounds], rfl⟩))
      | inr test =>
        refine .inr (.inr (.inr ⟨?_, test.ne'⟩))
        simp [parts, not_le.mpr (bounds.trans test), not_le.mpr test, test.le]
  obtain ⟨one, other⟩ | ⟨one, other⟩ | ⟨two, same⟩ | ⟨one, other⟩ := cases_
  · simp [one, other]
  · simp [one, other]
  · rw [two]
    simp only [same, ne_eq, not_true_eq_false, iff_false]
    intro ⟨_, _, unique⟩
    exact absurd ((unique .val (by simp)).trans (unique .test (by simp)).symm) (by decide)
  · simp [one, other]

theorem visitGraph_unbalanced (smaller_ratio : ℚ) (n : Nat) (loop : SplitLoop) (entry : List Char × Nat) :
    visitGraph false smaller_ratio n loop entry =
      .ok { loop with
        copies := loop.copies ++ (parts (ratio entry.2 n)).map fun part => (part, entry.1) } := by
  simp only [visitGraph, place, parts, Bool.false_eq_true, if_false]
  split_ifs <;> simp [SplitLoop.copy, bind, Except.bind, pure, Except.pure, *]

theorem foldlM_visitGraph_unbalanced (smaller_ratio : ℚ) (n : Nat) (entries : List (List Char × Nat)) (loop : SplitLoop) :
    entries.foldlM (visitGraph false smaller_ratio n) loop =
      .ok { loop with
        copies := loop.copies ++ entries.flatMap fun entry => (parts (ratio entry.2 n)).map fun part => (part, entry.1) } := by
  induction entries generalizing loop with
  | nil => simp [pure, Except.pure]
  | cons entry entries ih =>
    rw [foldlM_cons, visitGraph_unbalanced]
    simp only [bind, Except.bind, ih, flatMap_cons, append_assoc]

theorem visitGraph_balanced_error (loop : SplitLoop) {graph_fname : List Char} (beyond : TRAIN_SET_RATIO < ratio i n) :
    visitGraph true smaller_ratio n loop (graph_fname, i) = .error .typeError := by
  have label : get_merge_label (.str (String.ofList graph_fname)) = .error .typeError := rfl
  simp only [visitGraph, place, label, if_true, beyond, true_and, not_le.mpr beyond, if_false]
  split_ifs with val
  · rfl
  · have test : valEnd ≤ ratio i n := (not_le.mp val).le
    simp only [bind, Except.bind, pure, Except.pure, test, and_self, if_true]

theorem visitGraph_balanced_train (loop : SplitLoop) {graph_fname : List Char} (train : ratio i n ≤ TRAIN_SET_RATIO) :
    visitGraph true smaller_ratio n loop (graph_fname, i) = .ok (loop.copy .train graph_fname) := by
  have below : ¬ valEnd ≤ ratio i n := not_le.mpr (train.trans_lt train_lt_valEnd)
  simp only [visitGraph, train, if_true, not_lt.mpr train, false_and, if_false, below, and_false, bind, Except.bind, pure, Except.pure]

theorem foldlM_ne_ok {α β : Type} {f : β → α → Except PyError β} {items : List α} {item : α}
    (member : item ∈ items) (fails : ∀ b after, f b item ≠ .ok after) (b after : β) : items.foldlM f b ≠ .ok after := by
  induction items generalizing b with
  | nil => exact absurd member not_mem_nil
  | cons first items ih =>
    rw [foldlM_cons]
    intro ok
    cases step : f b first with
    | error =>
      rw [step] at ok
      cases ok
    | ok next =>
      rw [step] at ok
      cases mem_cons.mp member with
      | inl here =>
        subst here
        exact fails b next step
      | inr later => exact ih later next ok

theorem foldlM_visitGraph_balanced {entries : List (List Char × Nat)}
    (train : ∀ entry ∈ entries, ratio entry.2 n ≤ TRAIN_SET_RATIO) (loop : SplitLoop) :
    entries.foldlM (visitGraph true smaller_ratio n) loop =
      .ok { loop with
        copies := loop.copies ++ entries.map fun entry => (.train, entry.1) } := by
  induction entries generalizing loop with
  | nil => simp [pure, Except.pure]
  | cons entry entries ih =>
    have first := train entry mem_cons_self
    have rest := ih fun entry member => train entry (mem_cons_of_mem _ member)
    rw [foldlM_cons, visitGraph_balanced_train loop first]
    simp only [bind, Except.bind, rest, SplitLoop.copy, append_assoc, map_cons, singleton_append]

theorem mapM_ok {α β : Type} {f : α → Except PyError β} {items : List α} (all : ∀ item ∈ items, ∃ value, f item = .ok value) :
    ∃ values, items.mapM f = .ok values ∧ ∀ item ∈ items, ∃ value ∈ values, f item = .ok value := by
  induction items with
  | nil => exact ⟨[], rfl, by simp⟩
  | cons item items ih =>
    obtain ⟨value, first⟩ := all item mem_cons_self
    obtain ⟨values, rest, found⟩ := ih fun item member => all item (mem_cons_of_mem _ member)
    refine ⟨value :: values, ?_, ?_⟩
    · rw [mapM_cons, first, rest]
      rfl
    · intro other member
      cases mem_cons.mp member with
      | inl here => exact ⟨value, mem_cons_self, here ▸ first⟩
      | inr later =>
        obtain ⟨value', inside, ok⟩ := found other later
        exact ⟨value', mem_cons_of_mem _ inside, ok⟩

variable {merge_graph_variant : MergeGraphVariant} {listing : List (List Char)}
  {shuffle : List (List Char) → List (List Char)} {load : List Char → Except PyError PyObject}

def graphFiles (merge_graph_variant : MergeGraphVariant) (listing : List (List Char))
    (shuffle : List (List Char) → List (List Char)) : List (List Char) :=
  shuffle (listing.filter (isCollected merge_graph_variant))

def graphLabel (load : List Char → Except PyError PyObject) (graph_fname : List Char) :
    Except PyError MergeDecision := do
  get_merge_label (← mergeRecord load graph_fname)

theorem split_dataset_eq {balance : Bool} {stats : List MergeDecision}
    (labels : (graphFiles merge_graph_variant listing shuffle).mapM (graphLabel load) = .ok stats) :
    split_dataset balance merge_graph_variant listing shuffle load =
      ((graphFiles merge_graph_variant listing shuffle).zipIdx.foldlM
        (visitGraph balance (smallerRatio stats) (graphFiles merge_graph_variant listing shuffle).length)
        ⟨[], fun _ _ => 0⟩).map SplitLoop.copies := by
  change ((graphFiles merge_graph_variant listing shuffle).mapM (graphLabel load) >>= _) = _
  rw [labels]
  rfl

theorem exactlyOne_split_dataset {stats : List MergeDecision} (nodup : (graphFiles merge_graph_variant listing shuffle).Nodup)
    (labels : (graphFiles merge_graph_variant listing shuffle).mapM (graphLabel load) = .ok stats) :
    ExactlyOne (graphFiles merge_graph_variant listing shuffle)
        (split_dataset false merge_graph_variant listing shuffle load) ↔
      ∀ i < (graphFiles merge_graph_variant listing shuffle).length,
        ratio i (graphFiles merge_graph_variant listing shuffle).length ≠ valEnd := by
  rw [split_dataset_eq labels, foldlM_visitGraph_unbalanced]
  generalize graphFiles merge_graph_variant listing shuffle = graphs at nodup
  have copied : ∀ i graph, graphs[i]? = some graph → ∀ part, (part, graph) ∈ graphs.zipIdx.flatMap (fun entry =>
        (parts (ratio entry.2 graphs.length)).map fun part => (part, entry.1)) ↔
      part ∈ parts (ratio i graphs.length) := by
    intro i graph found part
    simp only [mem_flatMap, mem_map, Prod.mk.injEq, Prod.exists]
    constructor
    · rintro ⟨graph', j, member, part', inPart, rfl, rfl⟩
      have there := List.mem_zipIdx_iff_getElem?.mp member
      obtain ⟨bound, -⟩ := List.getElem?_eq_some_iff.mp found
      cases (getElem?_inj bound nodup).mp (found.trans there.symm)
      exact inPart
    · intro inPart
      exact ⟨graph, i, List.mem_zipIdx_iff_getElem?.mpr found, part, inPart, rfl, rfl⟩
  constructor
  · intro ⟨copies, ok, unique⟩ i bound
    cases ok
    have found : graphs[i]? = some graphs[i] := getElem?_eq_getElem bound
    rw [← existsUnique_mem_parts]
    simpa only [nil_append, copied i _ found] using unique graphs[i] (getElem_mem bound)
  · intro off
    refine ⟨_, rfl, ?_⟩
    intro graph member
    obtain ⟨i, found⟩ := mem_iff_getElem?.mp member
    obtain ⟨bound, -⟩ := List.getElem?_eq_some_iff.mp found
    simpa only [nil_append, copied i _ found] using (existsUnique_mem_parts _).mpr (off i bound)

theorem atMostOne_split_dataset {stats : List MergeDecision}
    (labels : (graphFiles merge_graph_variant listing shuffle).mapM (graphLabel load) = .ok stats) :
    AtMostOne (split_dataset true merge_graph_variant listing shuffle load) ↔
      (graphFiles merge_graph_variant listing shuffle).length ≤ 5 := by
  rw [split_dataset_eq labels]
  generalize graphFiles merge_graph_variant listing shuffle = graphs
  constructor
  · intro ⟨copies, ok, _⟩
    by_contra many
    have last : graphs.length - 1 < graphs.length := by omega
    have member : (graphs[graphs.length - 1], graphs.length - 1) ∈ graphs.zipIdx :=
      List.mem_zipIdx_iff_getElem?.mpr (getElem?_eq_getElem last)
    cases folded : graphs.zipIdx.foldlM (visitGraph true (smallerRatio stats) graphs.length) ⟨[], fun _ _ => 0⟩ with
    | error =>
      rw [folded] at ok
      cases ok
    | ok after =>
      refine foldlM_ne_ok member ?_ _ after folded
      intro loop after step
      rw [visitGraph_balanced_error loop (train_lt_ratio_last (by omega))] at step
      cases step
  · intro few
    rw [foldlM_visitGraph_balanced]
    · refine ⟨_, rfl, ?_⟩
      intro graph part part' first second
      simp only [nil_append, mem_map, Prod.mk.injEq] at first second
      obtain ⟨-, -, rfl, -⟩ := first
      obtain ⟨-, -, rfl, -⟩ := second
      rfl
    · intro entry member
      have found := List.mem_zipIdx_iff_getElem?.mp member
      exact ratio_le_train few (List.getElem?_eq_some_iff.mp found).1

end OneByOne

variable {name graph : List Char}

section ByName

variable {balance by_merge_point_file debug : Bool} {merge_graph_variant : MergeGraphVariant}
  {load : List Char → Except PyError PyObject} {names : List (List Char)} {stats : List Char → List MergeDecision}

theorem mem_partNames {inPart : ℚ → Bool} :
    name ∈ partNames inPart names ↔ ∃ i, names[i]? = some name ∧ inPart (ratio i names.length) = true := by
  simp only [partNames, mem_map, mem_filter, Prod.exists, mem_zipIdx_iff_getElem?]
  constructor
  · rintro ⟨name, i, ⟨found, inside⟩, rfl⟩
    exact ⟨i, found, inside⟩
  · rintro ⟨i, found, inside⟩
    exact ⟨name, i, ⟨found, inside⟩, rfl⟩

theorem partOf_isSome (member : name ∈ names) : ∃ part, partOf names name = some part := by
  obtain ⟨i, found⟩ := mem_iff_getElem?.mp member
  rw [partOf]
  split_ifs with train val test
  · exact ⟨_, rfl⟩
  · exact ⟨_, rfl⟩
  · exact ⟨_, rfl⟩
  · exfalso
    cases le_or_gt (ratio i names.length) TRAIN_SET_RATIO with
    | inl inTrain => exact train (mem_partNames.mpr ⟨i, found, decide_eq_true inTrain⟩)
    | inr beyond =>
      cases le_or_gt (ratio i names.length) valEnd with
      | inl inVal => exact val (mem_partNames.mpr ⟨i, found, decide_eq_true ⟨beyond, inVal⟩⟩)
      | inr inTest => exact test (mem_partNames.mpr ⟨i, found, decide_eq_true inTest.le⟩)

def HasName (by_merge_point_file : Bool) (load : List Char → Except PyError PyObject)
    (graph name : List Char) : Prop :=
  ∃ record label, mergeRecord load graph = .ok record ∧
    graphName by_merge_point_file record = .ok name ∧ get_merge_label record = .ok label

def nameOf (by_merge_point_file : Bool) (load : List Char → Except PyError PyObject)
    (graph : List Char) : Except PyError (List Char) := do
  graphName by_merge_point_file (← mergeRecord load graph)

theorem HasName.nameOf (has : HasName by_merge_point_file load graph name) : nameOf by_merge_point_file load graph = .ok name := by
  obtain ⟨record, label, loaded, named, -⟩ := has
  rw [Classifier.nameOf, loaded]
  exact named

theorem placeByName_ok {part : Part} {record : PyObject} {label : MergeDecision}
    (labelled : get_merge_label record = .ok label) (loop : NameLoop) :
    ∃ after, placeByName balance part stats name graph record loop = .ok after ∧
      (after.copies = loop.copies ∧ balance = true ∨ after.copies = loop.copies ++ [(part, graph)]) := by
  cases balance with
  | false => exact ⟨_, rfl, .inr rfl⟩
  | true =>
    rw [placeByName, if_pos rfl, labelled]
    simp only [bind, Except.bind]
    split_ifs
    · exact ⟨_, rfl, .inl ⟨rfl, trivial⟩⟩
    · exact ⟨_, rfl, .inl ⟨rfl, trivial⟩⟩
    · exact ⟨_, rfl, .inr rfl⟩

theorem visitGraphByName_ok (has : HasName by_merge_point_file load graph name) (member : name ∈ names) (loop : NameLoop) :
    ∃ after part, visitGraphByName balance by_merge_point_file load names stats loop graph =
        .ok after ∧ partOf names name = some part ∧
      (after.copies = loop.copies ∧ balance = true ∨ after.copies = loop.copies ++ [(part, graph)]) := by
  obtain ⟨record, label, loaded, named, labelled⟩ := has
  obtain ⟨part, inPart⟩ := partOf_isSome member
  have placed : ∀ part, ∃ after, placeByName balance part stats name graph record loop = .ok after ∧
        (after.copies = loop.copies ∧ balance = true ∨ after.copies = loop.copies ++ [(part, graph)]) :=
    fun _ => placeByName_ok labelled loop
  simp only [visitGraphByName, loaded, named, bind, Except.bind]
  rw [partOf] at inPart ⊢
  by_cases train : name ∈ train_names names
  · simp only [if_pos train]
    cases balance with
    | false => exact ⟨_, _, rfl, rfl, .inr rfl⟩
    | true =>
      rw [if_pos rfl, labelled]
      exact ⟨_, _, rfl, rfl, .inr rfl⟩
  · simp only [if_neg train] at inPart ⊢
    by_cases val : name ∈ val_names names
    · simp only [if_pos val]
      obtain ⟨after, ok, copied⟩ := placed .val
      exact ⟨after, _, ok, rfl, copied⟩
    · simp only [if_neg val] at inPart ⊢
      by_cases test : name ∈ test_names names
      · simp only [if_pos test]
        obtain ⟨after, ok, copied⟩ := placed .test
        exact ⟨after, _, ok, rfl, copied⟩
      · rw [if_neg test] at inPart
        cases inPart

theorem foldlM_visitGraphByName (balance : Bool) (stats : List Char → List MergeDecision) {graphs : List (List Char)}
    (named : ∀ graph ∈ graphs, ∃ name ∈ names, HasName by_merge_point_file load graph name) (loop : NameLoop) :
    ∃ after, graphs.foldlM (visitGraphByName balance by_merge_point_file load names stats) loop =
        .ok after ∧
      (∀ part graph, (part, graph) ∈ after.copies → (part, graph) ∈ loop.copies ∨
        ∃ name, HasName by_merge_point_file load graph name ∧ partOf names name = some part) ∧
      (∀ copy ∈ loop.copies, copy ∈ after.copies) ∧ (balance = false → ∀ graph ∈ graphs, ∃ part, (part, graph) ∈ after.copies) := by
  induction graphs generalizing loop with
  | nil => exact ⟨loop, rfl, fun _ _ copy => .inl copy, fun _ copy => copy, by simp⟩
  | cons graph graphs ih =>
    obtain ⟨name, member, has⟩ := named graph mem_cons_self
    obtain ⟨next, part, step, inPart, copied⟩ := visitGraphByName_ok has member loop
    obtain ⟨after, run, right, kept, all⟩ := ih (fun graph member => named graph (mem_cons_of_mem _ member)) next
    have grows : ∀ copy ∈ loop.copies, copy ∈ next.copies := by
      intro copy old
      cases copied with
      | inl same => exact same.1 ▸ old
      | inr more => exact more ▸ mem_append_left _ old
    refine ⟨after, ?_, ?_, fun copy old => kept copy (grows copy old), ?_⟩
    · rw [foldlM_cons, step]
      exact run
    · intro part' graph' inside
      cases right part' graph' inside with
      | inr known => exact .inr known
      | inl before =>
        cases copied with
        | inl same => exact .inl (same.1 ▸ before)
        | inr more =>
          rw [more] at before
          cases mem_append.mp before with
          | inl old => exact .inl old
          | inr new =>
            cases mem_singleton.mp new
            exact .inr ⟨name, has, inPart⟩
    · intro unbalanced graph' inside
      cases mem_cons.mp inside with
      | inr later => exact all unbalanced graph' later
      | inl here =>
        subst here
        cases copied with
        | inl same => exact absurd same.2 (by simp [unbalanced])
        | inr more => exact ⟨part, kept _ (more ▸ mem_append_right _ mem_cons_self)⟩

variable {listing : List (List Char)} {shuffle shuffleNames : List (List Char) → List (List Char)}

def namedGraphFiles (merge_graph_variant : MergeGraphVariant) (debug : Bool)
    (listing : List (List Char)) (shuffle : List (List Char) → List (List Char)) :
    List (List Char) :=
  let graph_fnames := listing.filter (isCollected merge_graph_variant)
  shuffle (if debug then graph_fnames.take 1000 else graph_fnames)

def labelsOf (pairs : List (List Char × MergeDecision)) (name : List Char) : List MergeDecision :=
  (pairs.filter fun pair => pair.1 = name).map Prod.snd

theorem split_dataset_by_name_eq {pairs : List (List Char × MergeDecision)}
    (collected : (namedGraphFiles merge_graph_variant debug listing shuffle).mapM
      (nameAndLabel by_merge_point_file load) = .ok pairs) :
    split_dataset_by_name balance by_merge_point_file load merge_graph_variant debug listing
        shuffle shuffleNames =
      ((namedGraphFiles merge_graph_variant debug listing shuffle).foldlM
        (visitGraphByName balance by_merge_point_file load
          (shuffleNames (pairs.map Prod.fst).dedup) (labelsOf pairs)) ⟨[], fun _ _ _ => 0⟩).map NameLoop.copies := by
  change ((namedGraphFiles merge_graph_variant debug listing shuffle).mapM (nameAndLabel by_merge_point_file load) >>= _) = _
  rw [collected]
  rfl

section

variable (shuffledNames : ∀ names, (shuffleNames names).Perm names)
  (named : ∀ graph ∈ namedGraphFiles merge_graph_variant debug listing shuffle, ∃ name, HasName by_merge_point_file load graph name)
include shuffledNames named

theorem split_dataset_by_name_ok :
    ∃ names copies,
      split_dataset_by_name balance by_merge_point_file load merge_graph_variant debug listing
        shuffle shuffleNames = .ok copies ∧
      (∀ part graph, (part, graph) ∈ copies →
        ∃ name, HasName by_merge_point_file load graph name ∧ partOf names name = some part) ∧
      (balance = false → ∀ graph ∈ namedGraphFiles merge_graph_variant debug listing shuffle, ∃ part, (part, graph) ∈ copies) := by
  have pairOf : ∀ graph name, HasName by_merge_point_file load graph name →
      ∃ label, nameAndLabel by_merge_point_file load graph = .ok (name, label) := by
    intro graph name ⟨record, label, loaded, ofRecord, labelled⟩
    refine ⟨label, ?_⟩
    simp only [nameAndLabel, loaded, ofRecord, labelled, bind, Except.bind, pure, Except.pure]
  have all : ∀ graph ∈ namedGraphFiles merge_graph_variant debug listing shuffle,
      ∃ pair, nameAndLabel by_merge_point_file load graph = .ok pair := by
    intro graph member
    obtain ⟨name, has⟩ := named graph member
    obtain ⟨label, pair⟩ := pairOf graph name has
    exact ⟨_, pair⟩
  obtain ⟨pairs, collected, found⟩ := mapM_ok all
  have inNames : ∀ graph ∈ namedGraphFiles merge_graph_variant debug listing shuffle, ∃ name ∈ shuffleNames (pairs.map Prod.fst).dedup,
        HasName by_merge_point_file load graph name := by
    intro graph member
    obtain ⟨name, has⟩ := named graph member
    obtain ⟨label, pair⟩ := pairOf graph name has
    obtain ⟨pair', inPairs, same⟩ := found graph member
    cases pair.symm.trans same
    refine ⟨name, ?_, has⟩
    rw [(shuffledNames _).mem_iff, mem_dedup]
    exact List.mem_map.mpr ⟨_, inPairs, rfl⟩
  rw [split_dataset_by_name_eq collected]
  obtain ⟨after, run, right, -, copied⟩ := foldlM_visitGraphByName balance (labelsOf pairs) inNames ⟨[], fun _ _ _ => 0⟩
  refine ⟨shuffleNames (pairs.map Prod.fst).dedup, after.copies, ?_, ?_, copied⟩
  · rw [run]
    rfl
  · intro part graph inside
    cases right part graph inside with
    | inl old => exact absurd old not_mem_nil
    | inr inPart => exact inPart

theorem namesApart_split_dataset_by_name :
    NamesApart (nameOf by_merge_point_file load)
      (split_dataset_by_name balance by_merge_point_file load merge_graph_variant debug listing shuffle shuffleNames) := by
  obtain ⟨names, copies, ok, right, -⟩ := split_dataset_by_name_ok shuffledNames named
  refine ⟨copies, ok, ?_⟩
  intro graph graph' part part' name first second ofFirst ofSecond
  obtain ⟨_, has, inPart⟩ := right part graph first
  obtain ⟨_, has', inPart'⟩ := right part' graph' second
  cases has.nameOf.symm.trans ofFirst
  cases has'.nameOf.symm.trans ofSecond
  exact Option.some.inj (inPart.symm.trans inPart')

theorem atMostOne_split_dataset_by_name :
    AtMostOne (split_dataset_by_name balance by_merge_point_file load merge_graph_variant debug listing shuffle shuffleNames) := by
  obtain ⟨names, copies, ok, right, -⟩ := split_dataset_by_name_ok shuffledNames named
  refine ⟨copies, ok, ?_⟩
  intro graph part part' first second
  obtain ⟨name, has, inPart⟩ := right part graph first
  obtain ⟨name', has', inPart'⟩ := right part' graph second
  cases has.nameOf.symm.trans has'.nameOf
  exact Option.some.inj (inPart.symm.trans inPart')

theorem exactlyOne_split_dataset_by_name :
    ExactlyOne (namedGraphFiles merge_graph_variant debug listing shuffle)
      (split_dataset_by_name false by_merge_point_file load merge_graph_variant debug listing shuffle shuffleNames) := by
  obtain ⟨names, copies, ok, right, all⟩ := split_dataset_by_name_ok shuffledNames named
  refine ⟨copies, ok, ?_⟩
  intro graph member
  obtain ⟨part, copied⟩ := all rfl graph member
  refine ⟨part, copied, ?_⟩
  intro part' copied'
  obtain ⟨name, has, inPart⟩ := right part graph copied
  obtain ⟨name', has', inPart'⟩ := right part' graph copied'
  cases has.nameOf.symm.trans has'.nameOf
  exact Option.some.inj (inPart'.symm.trans inPart)

end

end ByName

section Main

variable {merge_graph_variant : MergeGraphVariant} {listing : List (List Char)}
  {load : List Char → Except PyError PyObject} {by_merge_point_file : Bool}

/-- Splitting by names is a partition. Splitting the graphs is one without balancing if no graph
is on the bound of two sets, and with balancing only if all of them are for training. -/
theorem split_partition_iff (balance debug : Bool)
    (shuffle shuffleNames : List (List Char) → List (List Char)) (distinct : listing.Nodup)
    (shuffled : ∀ graphs, (shuffle graphs).Perm graphs)
    (shuffledNames : ∀ names, (shuffleNames names).Perm names)
    (named : ∀ graph ∈ listing, isCollected merge_graph_variant graph = true →
      ∃ name, HasName by_merge_point_file load graph name) :
    (ExactlyOne (graphFiles merge_graph_variant listing shuffle)
        (split_dataset false merge_graph_variant listing shuffle load) ↔
      ∀ i < (listing.filter (isCollected merge_graph_variant)).length,
        ratio i (listing.filter (isCollected merge_graph_variant)).length ≠ valEnd) ∧
    (AtMostOne (split_dataset true merge_graph_variant listing shuffle load) ↔
      (listing.filter (isCollected merge_graph_variant)).length ≤ 5) ∧
    ExactlyOne (namedGraphFiles merge_graph_variant debug listing shuffle)
      (split_dataset_by_name false by_merge_point_file load merge_graph_variant debug listing
        shuffle shuffleNames) ∧
    AtMostOne
      (split_dataset_by_name balance by_merge_point_file load merge_graph_variant debug listing
        shuffle shuffleNames) ∧
    NamesApart (nameOf by_merge_point_file load)
      (split_dataset_by_name balance by_merge_point_file load merge_graph_variant debug listing
        shuffle shuffleNames) := by
  have perm := shuffled (listing.filter (isCollected merge_graph_variant))
  have length : (graphFiles merge_graph_variant listing shuffle).length =
      (listing.filter (isCollected merge_graph_variant)).length := perm.length_eq
  have nodup : (graphFiles merge_graph_variant listing shuffle).Nodup :=
    perm.nodup_iff.mpr (distinct.filter _)
  have readable : ∀ graph ∈ graphFiles merge_graph_variant listing shuffle,
      ∃ label, graphLabel load graph = .ok label := by
    intro graph member
    obtain ⟨inListing, collected⟩ := List.mem_filter.mp (perm.mem_iff.mp member)
    obtain ⟨name, record, label, loaded, -, labelled⟩ := named graph inListing collected
    refine ⟨label, ?_⟩
    rw [graphLabel, loaded]
    exact labelled
  have allNamed : ∀ graph ∈ namedGraphFiles merge_graph_variant debug listing shuffle,
      ∃ name, HasName by_merge_point_file load graph name := by
    intro graph member
    have taken := (shuffled _).mem_iff.mp member
    have inFilter : graph ∈ listing.filter (isCollected merge_graph_variant) := by
      cases debug with
      | false => exact taken
      | true => exact mem_of_mem_take taken
    obtain ⟨inListing, collected⟩ := List.mem_filter.mp inFilter
    exact named graph inListing collected
  obtain ⟨stats, labels, -⟩ := mapM_ok readable
  refine ⟨?_, ?_, exactlyOne_split_dataset_by_name shuffledNames allNamed,
    atMostOne_split_dataset_by_name shuffledNames allNamed,
    namesApart_split_dataset_by_name shuffledNames allNamed⟩
  · rw [exactlyOne_split_dataset nodup labels, length]
  · rw [atMostOne_split_dataset labels, length]

end Main

section Example

def sampleListing (ids : List Char) : List (List Char) :=
  ids.map fun id => merge_graph_fname [id] .ALL "1"

def sampleRecord : PyObject :=
  .dict [("IR_filename", .str "echo.bc"), ("Merged_exploration_time", .str "0.040674"),
    ("Unmerged_exploration_time ", .str "0.054674")]

def sampleLoad (_ : List Char) : Except PyError PyObject := .ok sampleRecord

/-- Of ten graphs one is copied for validation and for testing, and balancing raises an
exception. -/
theorem ten_graphs_not_partition :
    ¬ ExactlyOne
        (graphFiles .ALL_VARS (sampleListing ['0', '1', '2', '3', '4', '5', '6', '7', '8', '9']) id)
        (split_dataset false .ALL_VARS
          (sampleListing ['0', '1', '2', '3', '4', '5', '6', '7', '8', '9']) id sampleLoad) ∧
    split_dataset true .ALL_VARS
        (sampleListing ['0', '1', '2', '3', '4', '5', '6', '7', '8', '9']) id sampleLoad =
      .error .typeError := by
  refine ⟨?_, by decide +kernel⟩
  have last : (split_dataset false .ALL_VARS
      (sampleListing ['0', '1', '2', '3', '4', '5', '6', '7', '8', '9']) id sampleLoad).map
        (List.drop 9) =
      .ok [(.val, merge_graph_fname ['9'] .ALL "1"), (.test, merge_graph_fname ['9'] .ALL "1")] := by
    decide +kernel
  intro ⟨copies, ok, unique⟩
  rw [ok] at last
  have copied : ∀ copy ∈ [(.val, merge_graph_fname ['9'] .ALL "1"),
      (.test, merge_graph_fname ['9'] .ALL "1")], copy ∈ copies := by
    intro copy member
    rw [← Except.ok.inj last] at member
    exact mem_of_mem_drop member
  have once := (unique (merge_graph_fname ['9'] .ALL "1") (by decide +kernel)).unique
    (copied _ mem_cons_self) (copied _ (mem_cons_of_mem _ mem_cons_self))
  exact absurd once (by decide)

theorem two_graphs_partition :
    AtMostOne (split_dataset true .ALL_VARS (sampleListing ['0', '1']) id sampleLoad) := by
  have named : ∀ graph ∈ sampleListing ['0', '1'], isCollected .ALL_VARS graph = true →
      ∃ name, HasName false sampleLoad graph name := by
    have loaded : ∀ graph ∈ sampleListing ['0', '1'],
        mergeRecord sampleLoad graph = .ok sampleRecord := by
      simp only [sampleListing, map_cons, map_nil, forall_mem_cons]
      exact ⟨rfl, rfl, by simp⟩
    intro graph member _
    exact ⟨_, sampleRecord, .SHOULD_MERGE, loaded graph member, rfl, by decide +kernel⟩
  exact (split_partition_iff false false id id (by decide +kernel) (fun _ => .refl _)
    (fun _ => .refl _) named).2.1.mpr (by decide +kernel)

end Example

end NeuroMerge.Classifier
