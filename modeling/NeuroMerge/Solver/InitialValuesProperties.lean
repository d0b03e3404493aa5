import NeuroMerge.Solver.Bindings
import NeuroMerge.Solver.Independence
import NeuroMerge.Solver.InitialValues

/-!
# The answers of the factors are put together rightly

The one thing that goes wrong is that the answers of a factor are copied into those of an
earlier one without a check of the bounds of the array.
-/

namespace NeuroMerge.Solver

open Absorption

open List hiding Disjoint
open Symbolic
open Symbolic.ConstraintManager (Hold)

variable {o : Options} {before : Symbolic.Array → Symbolic.Array → Bool} {fuel : Nat}
  {solver : SolverImpl} {ie : IndependentElementSet} {array : Symbolic.Array}

def Query.Answered (query : Query) (objects : List Symbolic.Array) : Option Values → Prop
  | none => query.Valid
  | some values => ∃ ρ, Hold ρ query.constraints ∧ query.expr.eval ρ 1 = 0#1 ∧
      Reads ρ objects values

variable {added : Bool × IndependentElementSet}

namespace IndependentElementSet

def Filled (s : IndependentElementSet) : Prop :=
  ∀ array dis, s.elements.lookup array = some dis → dis ≠ []

variable {s b : IndependentElementSet} {dis : DenseSet}

theorem Filled.insert (filled : s.Filled) (nonempty : dis ≠ []) : Filled { s with elements := s.elements.insert array dis } := by
  intro other found isElement
  by_cases same : other = array
  · subst same
    rw [AList.lookup_insert] at isElement
    cases isElement
    exact nonempty
  · rw [AList.lookup_insert_ne same] at isElement
    exact filled other found isElement

theorem Filled.erase (filled : s.Filled) (wholeObjects : List Symbolic.Array) :
    Filled { s with elements := s.elements.erase array, wholeObjects := wholeObjects } := by
  intro other found isElement
  by_cases same : other = array
  · subst same
    rw [AList.lookup_erase] at isElement
    cases isElement
  · rw [AList.lookup_erase_ne same] at isElement
    exact filled other found isElement

theorem Filled.foldl {α : Type} {items : List α} {step : Bool × IndependentElementSet → α → Bool × IndependentElementSet}
    (keeps : ∀ added : Bool × IndependentElementSet, added.2.Filled →
      ∀ item ∈ items, (step added item).2.Filled) (filled : added.2.Filled) : (items.foldl step added).2.Filled := by
  induction items generalizing added with
  | nil => exact filled
  | cons item items ih =>
    apply ih
    · exact fun added filled other member => keeps added filled other (.tail _ member)
    · exact keeps added filled item (.head _)

theorem addRead_filled (filled : s.Filled) (re : ReadExpr) : Satisfies (fun _ => True) Filled (addRead s re) := by
  rw [addRead]
  split
  · exact filled
  · split
    · exact filled
    · split
      · apply require_satisfies (fun _ => ?_) fun _ => trivial
        exact filled.insert (ne_nil_of_mem mem_insert_self)
      · exact filled.erase _

theorem ofExpr_filled (e : Expr) : Satisfies (fun _ => True) Filled (ofExpr e) := by
  have start : Filled ⟨∅, [], [e]⟩ := by
    intro array dis found
    cases found
  exact .foldlM_const start fun re _ s filled => addRead_filled filled re

theorem addWhole_filled (filled : added.2.Filled) (array : Symbolic.Array) : (addWhole added array).2.Filled := by
  rw [addWhole]
  split
  · exact filled.erase _
  · split
    · exact filled
    · exact filled

theorem addElements_filled (filled : added.2.Filled) {element : Sigma fun _ : Symbolic.Array => DenseSet} (nonempty : element.2 ≠ []) :
    (addElements added element).2.Filled := by
  rw [addElements]
  split
  · exact filled
  · split
    · exact filled.insert nonempty
    · rename_i dis found
      apply filled.insert
      obtain ⟨x, member⟩ := exists_mem_of_ne_nil dis (filled _ _ found)
      exact ne_nil_of_mem (((DenseSet.mem_add dis element.2).1 x).mpr (.inl member))

theorem add_filled (filled : s.Filled) (filledItem : b.Filled) : (s.add b).2.Filled := by
  apply Filled.foldl
  · intro added filled element member
    exact addElements_filled filled (filledItem element.1 element.2 (AList.mem_lookup_iff.mpr member))
  · apply Filled.foldl
    · exact fun added filled array _ => addWhole_filled filled array
    · exact filled

structure Good (s : IndependentElementSet) : Prop where
  filled : s.Filled
  nonempty : s.exprs ≠ []
  represents : s.Represents s.exprs

theorem ofExpr_good {e : Expr} (indexed : ∀ re ∈ e.reads, Indexed re) :
    Satisfies (fun _ => False) (fun s => s.Good ∧ s.exprs = [e]) (ofExpr e) := by
  obtain ⟨s, returned, represents⟩ := (ofExpr_spec indexed).exists_ok
  rw [returned]
  refine ⟨⟨(ofExpr_filled e).elim returned, ?_, ?_⟩, represents.exprs⟩
  · simp [represents.exprs]
  · rw [represents.exprs]
    exact represents

theorem add_good (good : s.Good) (goodItem : b.Good) : (s.add b).2.Good := by
  have contents : (s.add b).2.exprs = s.exprs ++ b.exprs := (add_added s b).exprs
  refine ⟨add_filled good.filled goodItem.filled, ?_, ?_⟩
  · simp [contents, good.nonempty]
  · rw [contents]
    exact good.represents.add goodItem.represents

structure Partition (es : List Expr) (sets : List IndependentElementSet) : Prop where
  contents : (sets.flatMap exprs).Perm es
  good : ∀ set ∈ sets, set.Good
  apart : sets.Pairwise fun first second => Disjoint first.covers second.covers

theorem separate_partition {es : List Expr} {sets : List IndependentElementSet}
    (singletons : List.Forall₂ (fun e set => Good set ∧ set.exprs = [e]) es sets) : Partition es (separate factors sets) := by
  have start : (∀ set ∈ sets, set.Good) ∧ sets.flatMap exprs = es := by
    induction singletons with
    | nil => exact ⟨nofun, rfl⟩
    | cons first _ ih =>
      rw [forall_mem_cons, flatMap_cons, ih.2, first.2]
      exact ⟨⟨first.1, ih.1⟩, rfl⟩
  constructor
  · rw [← start.2]
    exact separate_contents fun s item => (add_added s item).exprs
  · exact separate_preserves (fun s item good goodItem => add_good good goodItem) start.1
  · exact separate_disjoint factors_laws

end IndependentElementSet

open IndependentElementSet (Filled Good Partition)

variable {retMap' : Bindings}

namespace IndependentSolver

section Placing

variable {ds : DenseSet} {answers tempPtr : List (BitVec 8)}

theorem placeAnswers_places (same : tempPtr.length = answers.length) (inside : ∀ i ∈ ds, i < answers.length) :
    Satisfies (fun _ => False)
      (fun placed => placed.length = answers.length ∧
        ∀ i, placed[i]? = if i ∈ ds then answers[i]? else tempPtr[i]?) (placeAnswers ds answers tempPtr) := by
  induction ds generalizing tempPtr with
  | nil => exact ⟨same, fun i => by simp⟩
  | cons index rest ih =>
    rw [forall_mem_cons] at inside
    have placedFirst : placeAnswer answers tempPtr index = .ok (tempPtr.set index answers[index]) := by
      rw [placeAnswer, getElem?_eq_getElem inside.1]
      exact if_pos (same ▸ inside.1)
    rw [placeAnswers, foldlM_cons, placedFirst]
    have sameAfter : (tempPtr.set index answers[index]).length = answers.length := by
      rw [length_set, same]
    apply (ih sameAfter inside.2).mono
    intro placed facts
    refine ⟨facts.1, fun i => ?_⟩
    rw [facts.2 i, getElem?_set, same, if_pos inside.1]
    by_cases isIndex : index = i
    · subst isIndex
      simp [getElem?_eq_getElem inside.1]
    · simp [isIndex, Ne.symm isIndex]

theorem placeAnswers_outOfRange (outside : ∃ i ∈ ds, answers.length ≤ i) : placeAnswers ds answers tempPtr = .error .outOfRange := by
  induction ds generalizing tempPtr with
  | nil => simp at outside
  | cons index rest ih =>
    rw [placeAnswers, foldlM_cons, placeAnswer]
    cases found : answers[index]? with
    | none => rfl
    | some answer =>
      have later : ∃ i ∈ rest, answers.length ≤ i := by
        obtain ⟨i, member, behind⟩ := outside
        obtain rfl | old := List.mem_cons.mp member
        · rw [List.getElem?_eq_none_iff.mpr behind] at found
          cases found
        · exact ⟨i, old, behind⟩
      dsimp only
      split
      · exact ih later
      · rfl

end Placing

section Recording

variable {retMap : Bindings}

def elementsOf (ie : IndependentElementSet) (array : Symbolic.Array) : DenseSet :=
  (ie.elements.lookup array).getD []

/-- Of an array that is bound already, the factor has an element behind the end. -/
def Overflows (ie : IndependentElementSet) (retMap : Bindings) (array : Symbolic.Array) : Prop :=
  (retMap.lookup array).isSome = true ∧ ∃ i ∈ elementsOf ie array, array.size ≤ i

structure Records (ie : IndependentElementSet) (retMap retMap' : Bindings) (array : Symbolic.Array)
    (answers : List (BitVec 8)) : Prop where
  bound : (retMap'.lookup array).isSome = true
  bytes : ∀ i, (zeroed retMap').byte? array i =
    if (retMap.lookup array).isSome = true ∧ i ∉ elementsOf ie array then
      (zeroed retMap).byte? array i
    else answers[i]?

theorem Records.congr {start final : Bindings} {answers : List (BitVec 8)} (records : Records ie retMap retMap' array answers)
    (sameStart : start.lookup array = retMap.lookup array) (sameFinal : final.lookup array = retMap'.lookup array) :
    Records ie start final array answers where
  bound := sameFinal ▸ records.bound
  bytes i := by
    have bytes := records.bytes i
    simp only [PartialAssignment.byte?, zeroed] at bytes ⊢
    rw [sameStart, sameFinal, bytes]

theorem sized_insert {bytes : List (BitVec 8)} (sized : Sized retMap)
    (length : bytes.length = array.size) : Sized (retMap.insert array bytes) := by
  intro other found isBound
  by_cases same : other = array
  · subst same
    rw [Finmap.lookup_insert] at isBound
    cases isBound
    exact length
  · rw [Finmap.lookup_insert_of_ne _ same] at isBound
    exact sized other found isBound

theorem recordAnswers_records {answers : List (BitVec 8)} (sized : Sized retMap)
    (length : answers.length = array.size) (fits : ¬ Overflows ie retMap array) :
    Satisfies (fun _ => False)
      (fun retMap' => Sized retMap' ∧ Records ie retMap retMap' array answers ∧
        ∀ other, other ≠ array → retMap'.lookup other = retMap.lookup other) (recordAnswers ie retMap (array, answers)) := by
  rw [recordAnswers]
  cases isBound : retMap.lookup array with
  | none =>
    refine ⟨sized_insert sized length, ⟨?_, fun i => ?_⟩, fun other different => ?_⟩
    · rw [Finmap.lookup_insert]
      rfl
    · rw [PartialAssignment.byte?, zeroed, Finmap.lookup_insert, isBound]
      simp
    · exact Finmap.lookup_insert_of_ne _ different
  | some tempPtr =>
    have same : tempPtr.length = answers.length := (sized array tempPtr isBound).trans length.symm
    have inside : ∀ i ∈ elementsOf ie array, i < answers.length := by
      intro i member
      rw [length, ← Nat.not_le]
      exact fun behind => fits ⟨by rw [isBound]; rfl, i, member, behind⟩
    dsimp only
    rw [require, if_pos same]
    apply Satisfies.bind (placeAnswers_places same inside)
    intro placed facts
    refine ⟨sized_insert sized (facts.1.trans length), ⟨?_, fun i => ?_⟩, fun other different => ?_⟩
    · rw [Finmap.lookup_insert]
      rfl
    · rw [PartialAssignment.byte?, zeroed, Finmap.lookup_insert, PartialAssignment.byte?, Option.bind_some, facts.2 i, isBound]
      by_cases member : i ∈ elementsOf ie array
      · rw [if_pos member, if_neg fun both => both.2 member]
      · rw [if_neg member, if_pos ⟨rfl, member⟩, zeroed, isBound]
        rfl
    · exact Finmap.lookup_insert_of_ne _ different

theorem recordAnswers_outOfRange {answers : List (BitVec 8)} (sized : Sized retMap)
    (length : answers.length = array.size) (overflows : Overflows ie retMap array) :
    recordAnswers ie retMap (array, answers) = .error .outOfRange := by
  obtain ⟨isBound, i, member, behind⟩ := overflows
  obtain ⟨tempPtr, found⟩ := Option.isSome_iff_exists.mp isBound
  rw [recordAnswers, found]
  dsimp only
  rw [require, if_pos ((sized array tempPtr found).trans length.symm)]
  change (placeAnswers (elementsOf ie array) answers tempPtr >>= _) = _
  rw [placeAnswers_outOfRange ⟨i, member, length ▸ behind⟩]
  rfl

theorem overflows_congr (same : retMap'.lookup array = retMap.lookup array) : Overflows ie retMap' array ↔ Overflows ie retMap array := by
  rw [Overflows, Overflows, same]

structure RecordsAll (ie : IndependentElementSet) (retMap retMap' : Bindings)
    (arrays : List Symbolic.Array) (values : Values) : Prop where
  sized : Sized retMap'
  recorded : ∀ array answers, (array, answers) ∈ arrays.zip values →
    Records ie retMap retMap' array answers
  others : ∀ other, other ∉ arrays → retMap'.lookup other = retMap.lookup other

variable {arrays : List Symbolic.Array} {values : Values}

section

variable (sized : Sized retMap) (distinct : arrays.Nodup)
  (lengths : List.Forall₂ (fun array answers => answers.length = array.size) arrays values)
include sized distinct lengths

theorem recordAll_records (fits : ∀ array ∈ arrays, ¬ Overflows ie retMap array) :
    Satisfies (fun _ => False) (fun retMap' => RecordsAll ie retMap retMap' arrays values)
      ((arrays.zip values).foldlM (recordAnswers ie) retMap) := by
  induction lengths generalizing retMap with
  | nil => exact ⟨sized, nofun, fun _ _ => rfl⟩
  | cons length _ ih =>
    rename_i array answers arrays values _
    rw [nodup_cons] at distinct
    rw [forall_mem_cons] at fits
    apply Satisfies.bind (recordAnswers_records sized length fits.1)
    intro first facts
    obtain ⟨sizedFirst, records, unchanged⟩ := facts
    have same (other) (member : other ∈ arrays) : first.lookup other = retMap.lookup other :=
      unchanged other fun isFirst => distinct.1 (isFirst ▸ member)
    have fitsRest : ∀ other ∈ arrays, ¬ Overflows ie first other := fun other member =>
      (overflows_congr (same other member)).not.mpr (fits.2 other member)
    apply (ih sizedFirst distinct.2 fitsRest).mono
    intro final all
    refine ⟨all.sized, fun other given member => ?_, fun other outside => ?_⟩
    · obtain _ | ⟨_, later⟩ := member
      · exact records.congr rfl (all.others array distinct.1)
      · have inRest := (of_mem_zip later).1
        exact (all.recorded other given later).congr (same other inRest).symm rfl
    · rw [mem_cons, not_or] at outside
      rw [all.others other outside.2, unchanged other outside.1]

theorem recordAll_outOfRange (overflows : ∃ array ∈ arrays, Overflows ie retMap array) :
    (arrays.zip values).foldlM (recordAnswers ie) retMap = .error .outOfRange := by
  induction lengths generalizing retMap with
  | nil => simp at overflows
  | cons length _ ih =>
    rename_i array answers arrays values _
    rw [nodup_cons] at distinct
    rw [zip_cons_cons, foldlM_cons]
    by_cases now : Overflows ie retMap array
    · rw [recordAnswers_outOfRange sized length now]
      rfl
    · obtain ⟨first, recorded, sizedFirst, -, unchanged⟩ := (recordAnswers_records sized length now).exists_ok
      rw [recorded]
      apply ih sizedFirst distinct.2
      obtain ⟨other, member, beyond⟩ := overflows
      obtain rfl | inRest := List.mem_cons.mp member
      · exact absurd beyond now
      · refine ⟨other, inRest, (overflows_congr (unchanged other ?_)).mpr beyond⟩
        exact fun isFirst => distinct.1 (isFirst ▸ inRest)

end

end Recording

section Solving

open IndependentElementSet

variable {factors rest : List IndependentElementSet} {retMap : Bindings}

theorem mem_calculateArrayReferences : array ∈ calculateArrayReferences before ie ↔
    (ie.elements.lookup array).isSome = true ∨ array ∈ ie.wholeObjects := by
  rw [calculateArrayReferences, mem_mergeSort, mem_dedup, mem_append, AList.lookup_isSome]
  rfl

theorem nodup_calculateArrayReferences : (calculateArrayReferences before ie).Nodup :=
  (mergeSort_perm _ _).nodup_iff.mpr (nodup_dedup _)

theorem mem_covers_of_element {i : Nat} (member : i ∈ elementsOf ie array) : (array, i) ∈ ie.covers := by
  rw [elementsOf] at member
  cases found : ie.elements.lookup array with
  | none => simp [found] at member
  | some dis => exact .inr ⟨dis, found, by simpa [found] using member⟩

theorem reference_of_covers {i : Nat} (covered : (array, i) ∈ ie.covers) : array ∈ calculateArrayReferences before ie := by
  rw [mem_calculateArrayReferences]
  cases covered with
  | inl whole => exact .inr whole
  | inr element =>
    obtain ⟨dis, found, -⟩ := element
    exact .inl (Option.isSome_of_mem found)

theorem exists_covers (filled : Filled ie) (referenced : array ∈ calculateArrayReferences before ie) : ∃ i, (array, i) ∈ ie.covers := by
  rw [mem_calculateArrayReferences] at referenced
  cases referenced with
  | inl element =>
    obtain ⟨dis, found⟩ := Option.isSome_iff_exists.mp element
    obtain ⟨i, member⟩ := exists_mem_of_ne_nil dis (filled array dis found)
    exact ⟨i, .inr ⟨dis, found, member⟩⟩
  | inr whole => exact ⟨0, .inl whole⟩

def Models (ρ : Assignment) (retMap : Bindings) (ie : IndependentElementSet) : Prop :=
  Hold ρ ie.exprs ∧ ∀ array i, (array, i) ∈ ie.covers → i < array.size →
    ∃ byte, (zeroed retMap).byte? array i = some byte ∧ ρ array i = byte.setWidth array.range

structure Recorded (before : Symbolic.Array → Symbolic.Array → Bool)
    (done : List IndependentElementSet) (retMap : Bindings) : Prop where
  sized : Sized retMap
  bound : ∀ array, (retMap.lookup array).isSome = true ↔
    ∃ factor ∈ done, array ∈ calculateArrayReferences before factor
  agree : ∀ factor ∈ done, calculateArrayReferences before factor ≠ [] → ∃ ρ, Models ρ retMap factor

def Solved (before : Symbolic.Array → Symbolic.Array → Bool) (solver : SolverImpl)
    (ie : IndependentElementSet) : Prop :=
  calculateArrayReferences before ie = [] ∨
    ∃ values, solver.computeInitialValues (factorQuery ie) (calculateArrayReferences before ie) =
      some (some values)

def Fails (before : Symbolic.Array → Symbolic.Array → Bool) (solver : SolverImpl)
    (ie : IndependentElementSet) : Prop :=
  calculateArrayReferences before ie ≠ [] ∧
    solver.computeInitialValues (factorQuery ie) (calculateArrayReferences before ie) = none

/-- A factor that is solved has an element behind the end of an array of earlier ones. -/
def OverrunsNow (before : Symbolic.Array → Symbolic.Array → Bool) (solver : SolverImpl)
    (done : List IndependentElementSet) (ie : IndependentElementSet) : Prop :=
  Solved before solver ie ∧
    ∃ array, (∃ factor ∈ done, array ∈ calculateArrayReferences before factor) ∧
      ∃ i ∈ elementsOf ie array, array.size ≤ i

/-- All factors up to one that does so are solved. -/
def OverrunsAfter (before : Symbolic.Array → Symbolic.Array → Bool) (solver : SolverImpl)
    (done factors : List IndependentElementSet) : Prop :=
  ∃ solved ie rest, factors = solved ++ ie :: rest ∧
    (∀ factor ∈ solved, Solved before solver factor) ∧ OverrunsNow before solver (done ++ solved) ie

def AnswersRightly (before : Symbolic.Array → Symbolic.Array → Bool) (solver : SolverImpl)
    (ie : IndependentElementSet) : Prop :=
  ∀ answer, solver.computeInitialValues (factorQuery ie) (calculateArrayReferences before ie) =
    some answer → (factorQuery ie).Answered (calculateArrayReferences before ie) answer

/-- Where a factor holds it is defined and the bytes that it reads are there, and it can
hold if it has no array to ask for. -/
structure Determines (o : Options) (before : Symbolic.Array → Symbolic.Array → Bool)
    (ie : IndependentElementSet) : Prop where
  possible : calculateArrayReferences before ie = [] → ∃ ρ, Hold ρ ie.exprs
  safe : ∀ ρ, Hold ρ ie.exprs → ∀ e ∈ ie.exprs, e.WellFormed (.safe o ρ)
  inside : ∀ ρ, Hold ρ ie.exprs → ∀ e ∈ ie.exprs, ∀ re ∈ e.reads,
    (re.index.eval ρ re.root.domain).toNat < re.root.size

theorem overrunsAfter_cons {done : List IndependentElementSet} :
    OverrunsAfter before solver done (ie :: rest) ↔ OverrunsNow before solver done ie ∨
      Solved before solver ie ∧ OverrunsAfter before solver (done ++ [ie]) rest := by
  constructor
  · intro ⟨solved, last, others, split, allSolved, overruns⟩
    cases solved with
    | nil =>
      obtain ⟨rfl, rfl⟩ := List.cons.inj split
      rw [append_nil] at overruns
      exact .inl overruns
    | cons first solved =>
      obtain ⟨rfl, rfl⟩ := List.cons.inj split
      rw [forall_mem_cons] at allSolved
      refine .inr ⟨allSolved.1, solved, last, others, rfl, allSolved.2, ?_⟩
      rw [append_assoc]
      exact overruns
  · intro either
    cases either with
    | inl now =>
      refine ⟨[], ie, rest, rfl, nofun, ?_⟩
      rw [append_nil]
      exact now
    | inr later =>
      obtain ⟨solvedFirst, solved, last, others, rfl, allSolved, overruns⟩ := later
      refine ⟨ie :: solved, last, others, rfl, ?_, ?_⟩
      · rw [forall_mem_cons]
        exact ⟨solvedFirst, allSolved⟩
      · rw [append_assoc] at overruns
        exact overruns

theorem recorded_nil : Recorded before [] ∅ where
  sized array bytes found := by
    cases found
  bound array := by simp
  agree := nofun

variable {done : List IndependentElementSet}

theorem Recorded.skip (recorded : Recorded before done retMap)
    (closed : calculateArrayReferences before ie = []) : Recorded before (done ++ [ie]) retMap where
  sized := recorded.sized
  bound array := by
    rw [recorded.bound array]
    simp [or_and_right, exists_or, closed]
  agree factor member := by
    obtain old | new := List.mem_append.mp member
    · exact recorded.agree factor old
    · rw [List.mem_singleton.mp new]
      exact fun isOpen => absurd closed isOpen

theorem Recorded.step {values : Values} {ρ : Assignment} (recorded : Recorded before done retMap)
    (records : RecordsAll ie retMap retMap' (calculateArrayReferences before ie) values)
    (hold : Hold ρ ie.exprs) (reads : Reads ρ (calculateArrayReferences before ie) values)
    (apart : ∀ factor ∈ done, Filled factor ∧ Disjoint factor.covers ie.covers) : Recorded before (done ++ [ie]) retMap' := by
  have answered {array : Symbolic.Array} (member : array ∈ calculateArrayReferences before ie) :
      ∃ answers, (array, answers) ∈ (calculateArrayReferences before ie).zip values := by
    obtain ⟨i, bounded, isArray⟩ := mem_iff_getElem.mp member
    have boundedValues : i < values.length := reads.length_eq ▸ bounded
    refine ⟨values[i], mem_iff_getElem.mpr ⟨i, by simp [bounded, boundedValues], ?_⟩⟩
    rw [getElem_zip, isArray]
  constructor
  · exact records.sized
  · intro array
    simp only [mem_append, mem_singleton, or_and_right, exists_or, exists_eq_left, ← recorded.bound array]
    by_cases member : array ∈ calculateArrayReferences before ie
    · obtain ⟨answers, given⟩ := answered member
      exact iff_of_true (records.recorded array answers given).bound (.inr member)
    · rw [records.others array member]
      exact (or_iff_left member).symm
  · intro factor member isOpen
    obtain old | new := List.mem_append.mp member
    · obtain ⟨ρ', hold', agree⟩ := recorded.agree factor old isOpen
      refine ⟨ρ', hold', fun array i covered inside => ?_⟩
      obtain ⟨byte, found, same⟩ := agree array i covered inside
      refine ⟨byte, ?_, same⟩
      rw [← found]
      by_cases shared : array ∈ calculateArrayReferences before ie
      · obtain ⟨answers, given⟩ := answered shared
        rw [(records.recorded array answers given).bytes i]
        apply if_pos
        refine ⟨(recorded.bound array).mpr ⟨factor, old, reference_of_covers covered⟩, ?_⟩
        intro isElement
        exact Set.disjoint_left.mp (apart factor old).2 covered (mem_covers_of_element isElement)
      · rw [PartialAssignment.byte?, PartialAssignment.byte?, zeroed, zeroed, records.others array shared]
    · rw [List.mem_singleton.mp new]
      refine ⟨ρ, hold, fun array i covered inside => ?_⟩
      obtain ⟨answers, given⟩ := answered (reference_of_covers covered)
      obtain ⟨length, agree⟩ := forall₂_zip reads given
      have bounded : i < answers.length := length ▸ inside
      refine ⟨answers[i], ?_, agree i _ (getElem?_eq_getElem bounded)⟩
      rw [(records.recorded array answers given).bytes i, getElem?_eq_getElem bounded]
      apply if_neg
      intro both
      obtain ⟨isBound, notElement⟩ := both
      obtain ⟨other, isDone, referenced⟩ := (recorded.bound array).mp isBound
      obtain ⟨filled, disjoint⟩ := apart other isDone
      obtain ⟨j, coveredByOther⟩ := exists_covers filled referenced
      cases covered with
      | inl whole => exact Set.disjoint_left.mp disjoint coveredByOther (.inl whole)
      | inr element =>
        obtain ⟨dis, found, inDis⟩ := element
        apply notElement
        rw [elementsOf, Option.mem_def.mp found]
        exact inDis

def FactorResult (before : Symbolic.Array → Symbolic.Array → Bool) (solver : SolverImpl)
    (done : List IndependentElementSet) (ie : IndependentElementSet) :
    Option (Option Bindings) → Prop
  | none => ¬ Solved before solver ie ∧ Fails before solver ie
  | some none => ¬ Solved before solver ie ∧ (factorQuery ie).Valid
  | some (some retMap) => Solved before solver ie ∧ Recorded before (done ++ [ie]) retMap

theorem solveFactor_spec (recorded : Recorded before done retMap) (nonempty : ie.exprs ≠ [])
    (answers : AnswersRightly before solver ie) (apart : ∀ factor ∈ done, Filled factor ∧ Disjoint factor.covers ie.covers) :
    (OverrunsNow before solver done ie → solveFactor before solver ie retMap = .error .outOfRange) ∧
    (¬ OverrunsNow before solver done ie →
      Satisfies (fun _ => False) (FactorResult before solver done ie) (solveFactor before solver ie retMap)) := by
  have overruns_iff : OverrunsNow before solver done ie ↔ Solved before solver ie ∧
      ∃ array ∈ calculateArrayReferences before ie, Overflows ie retMap array := by
    simp only [OverrunsNow, Overflows, recorded.bound]
    refine and_congr_right fun _ => exists_congr fun array => (and_iff_right_of_imp ?_).symm
    intro ⟨_, i, member, _⟩
    exact reference_of_covers (mem_covers_of_element member)
  rw [overruns_iff, solveFactor, require, if_pos nonempty]
  split
  · rename_i closed
    rw [closed]
    exact ⟨fun overruns => absurd overruns.2 (by simp), fun _ => ⟨.inl closed, recorded.skip closed⟩⟩
  · rename_i isOpen
    have solved_iff : Solved before solver ie ↔ ∃ values, solver.computeInitialValues
        (factorQuery ie) (calculateArrayReferences before ie) = some (some values) :=
      or_iff_right isOpen
    cases answered : solver.computeInitialValues (factorQuery ie) (calculateArrayReferences before ie) with
    | none =>
      have unsolved : ¬ Solved before solver ie := by simp [solved_iff, answered]
      exact ⟨fun overruns => absurd overruns.1 unsolved, fun _ => ⟨unsolved, isOpen, answered⟩⟩
    | some answer =>
      have right := answers answer answered
      cases answer with
      | none =>
        have unsolved : ¬ Solved before solver ie := by simp [solved_iff, answered]
        exact ⟨fun overruns => absurd overruns.1 unsolved, fun _ => ⟨unsolved, right⟩⟩
      | some values =>
        obtain ⟨ρ, hold, -, reads⟩ := right
        have solved : Solved before solver ie := solved_iff.mpr ⟨values, answered⟩
        have lengths : List.Forall₂ (fun array answers => answers.length = array.size)
            (calculateArrayReferences before ie) values := reads.imp fun _ _ both => both.1
        dsimp only
        rw [require, if_pos reads.length_eq.symm]
        constructor
        · intro overruns
          rw [recordAll_outOfRange recorded.sized nodup_calculateArrayReferences lengths overruns.2]
          rfl
        · intro fits
          have fit : ∀ array ∈ calculateArrayReferences before ie, ¬ Overflows ie retMap array :=
            fun array member beyond => fits ⟨solved, array, member, beyond⟩
          apply Satisfies.bind (recordAll_records recorded.sized nodup_calculateArrayReferences lengths fit)
          intro retMap' records
          exact ⟨solved, recorded.step records hold reads apart⟩

def LoopResult (before : Symbolic.Array → Symbolic.Array → Bool) (solver : SolverImpl)
    (done factors : List IndependentElementSet) : Option (Option Bindings) → Prop
  | none => ∃ factor ∈ factors, Fails before solver factor
  | some none => ∃ factor ∈ factors, (factorQuery factor).Valid
  | some (some retMap) => Recorded before (done ++ factors) retMap

theorem solveFactors_spec (recorded : Recorded before done retMap) (nonempty : ∀ factor ∈ rest, factor.exprs ≠ [])
    (answers : ∀ factor ∈ rest, AnswersRightly before solver factor) (filled : ∀ factor ∈ done ++ rest, Filled factor)
    (apart : (done ++ rest).Pairwise fun first second => Disjoint first.covers second.covers) :
    (OverrunsAfter before solver done rest →
      solveFactors before solver rest retMap = .error .outOfRange) ∧
    (¬ OverrunsAfter before solver done rest →
      Satisfies (fun _ => False) (LoopResult before solver done rest) (solveFactors before solver rest retMap)) := by
  induction rest generalizing done retMap with
  | nil =>
    refine ⟨fun overruns => ?_, fun _ => ?_⟩
    · obtain ⟨solved, factor, others, split, -⟩ := overruns
      simp at split
    · rw [solveFactors, Satisfies.pure_iff, LoopResult, append_nil]
      exact recorded
  | cons ie rest ih =>
    rw [forall_mem_cons] at nonempty answers
    have assoc : done ++ ie :: rest = done ++ [ie] ++ rest := by simp
    have apartFirst : ∀ factor ∈ done, Filled factor ∧ Disjoint factor.covers ie.covers := by
      intro factor member
      rw [pairwise_append] at apart
      exact ⟨filled factor (by simp [member]), apart.2.2 factor member ie (.head _)⟩
    rw [assoc] at filled apart
    obtain ⟨overrun, answer⟩ := solveFactor_spec recorded nonempty.1 answers.1 apartFirst
    rw [overrunsAfter_cons, solveFactors]
    by_cases now : OverrunsNow before solver done ie
    · rw [overrun now]
      exact ⟨fun _ => rfl, fun fits => absurd (.inl now) fits⟩
    · obtain ⟨result, returned, outcome⟩ := (answer now).exists_ok
      rw [returned, or_iff_right now]
      rcases result with _ | _ | retMap'
      · exact ⟨fun overruns => absurd overruns.1 outcome.1, fun _ => ⟨ie, .head _, outcome.2⟩⟩
      · exact ⟨fun overruns => absurd overruns.1 outcome.1, fun _ => ⟨ie, .head _, outcome.2⟩⟩
      · obtain ⟨overrunLater, answerLater⟩ := ih outcome.2 nonempty.2 answers.2 filled apart
        refine ⟨fun overruns => overrunLater overruns.2, fun fits => ?_⟩
        apply (answerLater fun later => fits ⟨outcome.1, later⟩).mono
        intro final later
        rcases final with _ | _ | _
        · obtain ⟨factor, member, fails⟩ := later
          exact ⟨factor, .tail _ member, fails⟩
        · obtain ⟨factor, member, valid⟩ := later
          exact ⟨factor, .tail _ member, valid⟩
        · rw [LoopResult, assoc]
          exact later

end Solving

section Query

variable {query : Query} {sets : List IndependentElementSet}

def Negated (query : Query) (es : List Expr) : Prop :=
  ∀ ρ, Hold ρ es ↔ Hold ρ query.constraints ∧ query.expr.eval ρ 1 = 0#1

theorem evaluable_indexed {e : Expr} (evaluable : e.Evaluable o) : ∀ re ∈ e.reads, IndependentElementSet.Indexed re :=
  Sliceable.indexed ⟨evaluable.wellFormed fun _ _ => 0, evaluable.narrow⟩

theorem mapM_ofExpr (es : List Expr) (evaluable : ∀ e ∈ es, e.Evaluable o) :
    Satisfies (fun _ => False) (fun sets => List.Forall₂ (fun e set => Good set ∧ set.exprs = [e]) es sets)
      (es.mapM IndependentElementSet.ofExpr) := by
  apply Satisfies.mapM
  intro e member
  exact IndependentElementSet.ofExpr_good (evaluable_indexed (evaluable e member))

/-- The negation of the expression, unless that is the constant false. -/
def NegatedBy (o : Options) (fuel : Nat) (query : Query) (negated : List Expr) : Prop :=
  (negated = [] ∧ ∃ c, query.expr = .constant c ∧ ∀ ρ, query.expr.eval ρ 1 = 0#1) ∨
    ∃ neg, negated = [neg] ∧ createIsZero o fuel query.expr = .ok neg

/-- A run ends for want of fuel or by an assertion. -/
def Stops (fault : Fault) : Prop := fault = .outOfFuel ∨ ∃ failed, fault = .assertion failed

theorem getAllIndependentConstraintsSets_partition (evaluated : QueryEvaluated o query) :
    Satisfies Stops
      (fun sets => ∃ negated, Partition (negated ++ query.constraints) sets ∧
        NegatedBy o fuel query negated ∧ Negated query (negated ++ query.constraints))
      (getAllIndependentConstraintsSets o fuel query) := by
  have finish (negated : List Expr) (first : List IndependentElementSet)
      (singletons : List.Forall₂ (fun e set => Good set ∧ set.exprs = [e]) negated first)
      (creates : NegatedBy o fuel query negated)
      (holds : Negated query (negated ++ query.constraints)) :
      Satisfies Stops (fun sets => ∃ negated, Partition (negated ++ query.constraints) sets ∧
          NegatedBy o fuel query negated ∧ Negated query (negated ++ query.constraints))
        (do
          let rest ← query.constraints.mapM IndependentElementSet.ofExpr
          pure (separate IndependentElementSet.factors (first ++ rest))) := by
    apply Satisfies.bind ((mapM_ofExpr query.constraints fun c member =>
      (evaluated.constraints c member).1).weaken fun _ => False.elim)
    intro rest later
    exact ⟨negated, IndependentElementSet.separate_partition (rel_append singletons later), creates, holds⟩
  rw [getAllIndependentConstraintsSets]
  split
  · rename_i ce isConstant
    apply require_satisfies (fun isFalse => ?_) fun _ => .inr ⟨_, rfl⟩
    rw [Expr.constant?_eq_some] at isConstant
    have refuted (ρ : Assignment) : query.expr.eval ρ 1 = 0#1 := by
      rw [isConstant, Expr.eval]
      simp only [ConstantExpr.isFalse, decide_eq_true_eq] at isFalse
      rw [isFalse.2]
      simp
    apply finish [] [] .nil (.inl ⟨rfl, ce, isConstant, refuted⟩)
    intro ρ
    simp [refuted]
  · apply Satisfies.bind_left (createIsZero_satisfies evaluated)
    intro neg negated
    have evaluable : neg.Evaluable o := evaluated.expr.negated evaluated.boolean negated
    obtain ⟨set, returned, good⟩ := (IndependentElementSet.ofExpr_good (evaluable_indexed evaluable)).exists_ok
    rw [returned]
    apply finish [neg] [set] (.cons good .nil) (.inr ⟨neg, rfl, negated⟩)
    intro ρ
    rw [singleton_append, Hold, forall_mem_cons, and_comm, negated_eq_one_iff evaluated negated ρ]
    rfl

end Query

section Assertion

variable {query : Query} {objects : List Symbolic.Array} {values : Values} {retMap : Bindings}
  {assign : PartialAssignment} {ρ : Assignment} {e : Expr}

theorem evaluate_decides (evaluable : e.Evaluable o) (boolean : e.width = 1) (extended : assign.Extends ρ) :
    Satisfies Stops (fun ret => ∀ ce, ret.constant? = some ce →
        (ce.isFalse = false → e.eval ρ 1 = 1#1) ∧ (ce.isTrue = true → e.eval ρ 1 = 1#1)) (assign.evaluate o fuel e) := by
  apply ((PartialAssignment.evaluate_agrees evaluable extended).weaken fun _ => .inl).mono
  intro ret agrees ce isConstant
  rw [Expr.constant?_eq_some] at isConstant
  subst isConstant
  have denotes := agrees.of_constant
  rw [boolean] at denotes
  subst denotes
  constructor
  · intro notFalse
    rw [← BitVector.ne_zero_iff_eq_one]
    intro isZero
    simp [ConstantExpr.isFalse, isZero] at notFalse
  · exact ConstantExpr.isTrue_iff.mp

theorem constraintsEvaluateToTrue_spec (extended : assign.Extends ρ) (constraints : List Expr)
    (evaluable : ∀ c ∈ constraints, c.Evaluable o ∧ c.width = 1) :
    Satisfies Stops (fun verdict => verdict = true → Hold ρ constraints) (constraintsEvaluateToTrue o fuel assign constraints) := by
  induction constraints with
  | nil => exact fun _ => nofun
  | cons constraint rest ih =>
    rw [forall_mem_cons] at evaluable
    apply Satisfies.bind (evaluate_decides evaluable.1.1 evaluable.1.2 extended)
    intro ret decides
    split
    · exact .inr ⟨_, rfl⟩
    · rename_i ce isConstant
      split
      · exact nofun
      · rename_i notFalse
        apply (ih evaluable.2).mono
        intro verdict right isTrue
        rw [Hold, forall_mem_cons]
        exact ⟨(decides ce isConstant).1 (by simpa using notFalse), right isTrue⟩

theorem assertCreatedPointEvaluatesToTrue_spec (evaluated : QueryEvaluated o query)
    (extended : PartialAssignment.Extends ρ ⟨true, Bindings.ofValues objects values ∪ retMap⟩) :
    Satisfies Stops
      (fun verdict => verdict = true → Hold ρ query.constraints ∧ query.expr.eval ρ 1 = 0#1)
      (assertCreatedPointEvaluatesToTrue o fuel query objects values retMap) := by
  apply Satisfies.bind (constraintsEvaluateToTrue_spec extended _ evaluated.constraints)
  intro constraintsTrue hold
  split
  · rename_i isTrue
    apply Satisfies.bind_left (createIsZero_satisfies evaluated)
    intro neg negated
    have width : neg.width = 1 := (evaluated.expr.negated_eval evaluated.boolean negated fun _ _ => 0).width
    apply Satisfies.bind (evaluate_decides (evaluated.expr.negated evaluated.boolean negated) width extended)
    intro q decides
    split
    · exact .inr ⟨_, rfl⟩
    · rename_i ce isConstant
      intro negTrue
      exact ⟨hold isTrue, (negated_eq_one_iff evaluated negated ρ).mp ((decides ce isConstant).2 negTrue)⟩
  · exact nofun

theorem constraintsEvaluateToTrue_true (extended : assign.Extends ρ) (constraints : List Expr)
    (evaluable : ∀ c ∈ constraints, c.Evaluable o ∧ c.width = 1)
    (right : ∀ c ∈ constraints, assign.Defines o ρ c ∧ c.eval ρ 1 = 1#1) :
    Satisfies (· = .outOfFuel) (· = true) (constraintsEvaluateToTrue o fuel assign constraints) := by
  induction constraints with
  | nil => exact rfl
  | cons constraint rest ih =>
    rw [forall_mem_cons] at evaluable right
    apply Satisfies.bind (PartialAssignment.evaluate_constant evaluable.1.1 extended right.1.1)
    rintro ret rfl
    rw [evaluable.1.2, right.1.2]
    exact ih evaluable.2 right.2

theorem assertCreatedPointEvaluatesToTrue_true (evaluated : QueryEvaluated o query)
    (extended : PartialAssignment.Extends ρ ⟨true, Bindings.ofValues objects values ∪ retMap⟩)
    (right : ∀ c ∈ query.constraints, PartialAssignment.Defines o ρ
      ⟨true, Bindings.ofValues objects values ∪ retMap⟩ c ∧ c.eval ρ 1 = 1#1)
    (rightNegation : ∀ neg, createIsZero o fuel query.expr = .ok neg → PartialAssignment.Defines o ρ
      ⟨true, Bindings.ofValues objects values ∪ retMap⟩ neg ∧ neg.eval ρ 1 = 1#1) :
    Satisfies (· = .outOfFuel) (· = true)
      (assertCreatedPointEvaluatesToTrue o fuel query objects values retMap) := by
  apply Satisfies.bind (constraintsEvaluateToTrue_true extended _ evaluated.constraints right)
  rintro constraintsTrue rfl
  rw [if_pos rfl]
  apply Satisfies.bind (createIsZero_satisfies evaluated)
  intro neg negated
  obtain ⟨defines, isTrue⟩ := rightNegation neg negated
  have width : neg.width = 1 := (evaluated.expr.negated_eval evaluated.boolean negated fun _ _ => 0).width
  apply Satisfies.bind (PartialAssignment.evaluate_constant
    (evaluated.expr.negated evaluated.boolean negated) extended defines)
  rintro q rfl
  rw [width, isTrue]
  rfl

theorem constraintsEvaluateToTrue_ends (constraints : List Expr) :
    Ends fun fuel => constraintsEvaluateToTrue o fuel assign constraints := by
  induction constraints with
  | nil => exact .pure _
  | cons constraint rest ih =>
    apply (ExprEvaluator.visit_ends constraint).bind
    intro ret _
    cases ret.constant? with
    | none => exact .error _ nofun
    | some ce => exact .ite (fun _ => .pure _) fun _ => ih

theorem assertCreatedPointEvaluatesToTrue_ends (query : Query) (objects : List Symbolic.Array) (values : Values) (retMap : Bindings) :
    Ends fun fuel => assertCreatedPointEvaluatesToTrue o fuel query objects values retMap := by
  apply (constraintsEvaluateToTrue_ends query.constraints).bind
  intro constraintsTrue _
  apply Halts.ite _ fun _ => .pure _
  intro _
  apply (createIsZero_ends query.expr).bind
  intro neg _
  apply (ExprEvaluator.visit_ends neg).bind
  intro q _
  cases q.constant? with
  | none => exact .error _ nofun
  | some ce => exact .pure _

end Assertion

section Result

variable {query : Query} {objects : List Symbolic.Array} {retMap : Bindings} {ρ : Assignment}

def valueOf (retMap : Bindings) (array : Symbolic.Array) : List (BitVec 8) :=
  (retMap.lookup array).getD (List.replicate array.size 0)

theorem length_valueOf (sized : Sized retMap) (array : Symbolic.Array) : (valueOf retMap array).length = array.size := by
  rw [valueOf]
  cases found : retMap.lookup array with
  | some bytes => exact sized array bytes found
  | none => exact length_replicate

def created (objects : List Symbolic.Array) (retMap : Bindings) : PartialAssignment :=
  ⟨true, .ofValues objects (objects.map (valueOf retMap)) ∪ retMap⟩

theorem lookup_created (member : array ∈ objects) :
    (created objects retMap).bindings.lookup array = some (valueOf retMap array) := by
  obtain ⟨sound, complete⟩ := lookup_ofValues_from array (objects.zip (objects.map (valueOf retMap))) ∅
  have isBound := complete (.inr (by simpa [map_fst_zip] using member))
  obtain ⟨bytes, found⟩ := Option.isSome_iff_exists.mp isBound
  have given := (sound bytes found).resolve_left (by simp)
  obtain ⟨i, bounded, same⟩ := mem_iff_getElem.mp given
  rw [getElem_zip, getElem_map, Prod.mk.injEq] at same
  have bound : array ∈ Bindings.ofValues objects (objects.map (valueOf retMap)) := Finmap.lookup_isSome.mp isBound
  rw [created, Finmap.lookup_union_left bound, ← same.1, same.2, same.1]
  exact found

/-- What the factors have bound is what is checked. -/
theorem lookup_created_of_bound (isBound : (retMap.lookup array).isSome = true) :
    (created objects retMap).bindings.lookup array = retMap.lookup array := by
  obtain ⟨bytes, found⟩ := Option.isSome_iff_exists.mp isBound
  by_cases member : array ∈ objects
  · rw [lookup_created member, valueOf, found]
    rfl
  · apply Finmap.lookup_union_right
    intro requested
    obtain ⟨sound, -⟩ := lookup_ofValues_from array (objects.zip (objects.map (valueOf retMap))) ∅
    obtain ⟨bytes, foundBytes⟩ := Option.isSome_iff_exists.mp (Finmap.lookup_isSome.mpr requested)
    have given := (sound bytes foundBytes).resolve_left (by simp)
    exact member (of_mem_zip given).1

theorem reads_created (sized : Sized retMap)
    (extended : PartialAssignment.Extends ρ (created objects retMap)) : Reads ρ objects (objects.map (valueOf retMap)) := by
  rw [Reads, forall₂_map_right_iff, forall₂_same]
  intro array member
  refine ⟨length_valueOf sized array, fun i byte found => extended.bound ?_⟩
  rw [PartialAssignment.byte?, lookup_created member]
  exact found

section Determination

variable {sets : List IndependentElementSet} {re : ReadExpr}

theorem Recorded.models (recorded : Recorded before sets retMap) (member : ie ∈ sets)
    (determines : Determines o before ie) : ∃ ρ, Models ρ retMap ie := by
  by_cases closed : calculateArrayReferences before ie = []
  · obtain ⟨ρ, hold⟩ := determines.possible closed
    refine ⟨ρ, hold, fun array i covered _ => ?_⟩
    have referenced : array ∈ calculateArrayReferences before ie := reference_of_covers covered
    rw [closed] at referenced
    cases referenced
  · exact recorded.agree ie member closed

theorem not_fixed_of_symbolic (symbolic : re.root.isSymbolicArray = true) : ¬ re.Fixed := by
  intro fixed
  have isConstant := fixed.1
  simp [Symbolic.Array.isConstantArray, symbolic] at isConstant

theorem covers_read (good : Good ie) (member : e ∈ ie.exprs) (isRead : re ∈ e.reads)
    (symbolic : re.root.isSymbolicArray = true) :
    (re.root, (re.index.eval ρ re.root.domain).toNat) ∈ ie.covers :=
  good.represents.covers e member ⟨re, isRead, not_fixed_of_symbolic symbolic, rfl, ρ, rfl⟩

/-- What the factor has found for its bytes is what is checked. -/
theorem Models.agrees (models : Models ρ retMap ie) (good : Good ie) (member : e ∈ ie.exprs)
    (isRead : re ∈ e.reads) (inside : (re.index.eval ρ re.root.domain).toNat < re.root.size)
    (bound : ∀ array ∈ calculateArrayReferences before ie, (retMap.lookup array).isSome = true) :
    re.Agrees ρ (created objects retMap).toAssignment := by
  rw [ReadExpr.Agrees]
  cases re.root.symbolic_or_constant with
  | inr isConstant => exact Symbolic.Array.initial_of_constant isConstant inside
  | inl symbolic =>
    have covered := covers_read (ρ := ρ) good member isRead symbolic
    obtain ⟨byte, found, same⟩ := models.2 _ _ covered inside
    rw [Symbolic.Array.initial_of_symbolic symbolic, Symbolic.Array.initial_of_symbolic symbolic, same]
    symm
    apply (PartialAssignment.extends_toAssignment _).bound
    rw [PartialAssignment.byte?, lookup_created_of_bound (bound _ (reference_of_covers covered))]
    exact found

theorem Recorded.holds (recorded : Recorded before sets retMap) (member : ie ∈ sets) (good : Good ie)
    (determines : Determines o before ie) : Hold (created objects retMap).toAssignment ie.exprs := by
  obtain ⟨ρ, models⟩ := recorded.models member determines
  intro e inFactor
  have agrees : ∀ re ∈ e.reads, re.Agrees ρ (created objects retMap).toAssignment := by
    intro re isRead
    apply models.agrees good inFactor isRead (determines.inside ρ models.1 e inFactor re isRead)
    exact fun array referenced => (recorded.bound array).mpr ⟨ie, member, referenced⟩
  rw [← Expr.eval_congr agrees]
  exact models.1 e inFactor

theorem Recorded.bound_created (recorded : Recorded before sets retMap) (member : ie ∈ sets)
    (good : Good ie) (inFactor : e ∈ ie.exprs)
    (inside : ∀ re ∈ e.reads,
      (re.index.eval (created objects retMap).toAssignment re.root.domain).toNat < re.root.size) :
    (created objects retMap).Bound (created objects retMap).toAssignment e := by
  intro _ re isRead missing
  cases re.root.symbolic_or_constant with
  | inr isConstant =>
    cases re.root.validSize with
    | inl none => simp [Symbolic.Array.isConstantArray, Symbolic.Array.isSymbolicArray, none] at isConstant
    | inr size =>
      rw [List.getElem?_eq_none_iff, size] at missing
      exact absurd (inside re isRead) (by omega)
  | inl symbolic =>
    have isBound : (retMap.lookup re.root).isSome = true := (recorded.bound re.root).mpr
      ⟨ie, member, reference_of_covers (covers_read (ρ := fun _ _ => 0) good inFactor isRead symbolic)⟩
    obtain ⟨bytes, found⟩ := Option.isSome_iff_exists.mp isBound
    rw [PartialAssignment.byte?, lookup_created_of_bound isBound, found]
    simp [recorded.sized _ bytes found, inside re isRead]

theorem Recorded.defines (recorded : Recorded before sets retMap) (member : ie ∈ sets)
    (good : Good ie) (determines : Determines o before ie) (inFactor : e ∈ ie.exprs) (isPlain : e.plain = true) :
    (created objects retMap).Defines o (created objects retMap).toAssignment e ∧
      e.eval (created objects retMap).toAssignment 1 = 1#1 := by
  have hold : Hold (created objects retMap).toAssignment ie.exprs := recorded.holds member good determines
  have inside := determines.inside _ hold e inFactor
  exact ⟨⟨determines.safe _ hold e inFactor, isPlain,
    recorded.bound_created member good inFactor inside⟩, hold e inFactor⟩

end Determination

/-- The parts of the query are evaluated without leaving a mark, and its factors are
determined. -/
structure Determined (o : Options) (before : Symbolic.Array → Symbolic.Array → Bool)
    (query : Query) : Prop where
  plain : ∀ c ∈ query.expr :: query.constraints, c.plain = true
  factors : ∃ sets, Returns (fun fuel => getAllIndependentConstraintsSets o fuel query) sets ∧
    ∀ factor ∈ sets, Determines o before factor

/-- There is no access out of range, what is reported is right, nothing is reported only
where the solver below fails, and the assertions hold unless the query is undetermined. -/
def Composed (o : Options) (before : Symbolic.Array → Symbolic.Array → Bool) (solver : SolverImpl)
    (query : Query) (objects : List Symbolic.Array) : Except Fault (Option (Option Values)) → Prop
  | .ok (some answer) => query.Answered objects answer
  | .ok none => ∃ sets, Returns (fun fuel => getAllIndependentConstraintsSets o fuel query) sets ∧
      ∃ factor ∈ sets, Fails before solver factor
  | .error fault => (∃ failed, fault = .assertion failed) ∧ ¬ Determined o before query

/-- Of the factors of the query one overruns an array of earlier ones. -/
def Overruns (o : Options) (before : Symbolic.Array → Symbolic.Array → Bool) (solver : SolverImpl)
    (query : Query) : Prop :=
  ∃ sets, Returns (fun fuel => getAllIndependentConstraintsSets o fuel query) sets ∧
    OverrunsAfter before solver [] sets

theorem solveFactors_returned {sets : List IndependentElementSet} (evaluated : QueryEvaluated o query)
    (returned : getAllIndependentConstraintsSets o fuel query = .ok sets)
    (correct : ∀ factor ∈ sets, AnswersRightly before solver factor) :
    (OverrunsAfter before solver [] sets → solveFactors before solver sets ∅ = .error .outOfRange) ∧
    (¬ OverrunsAfter before solver [] sets →
      Satisfies (fun _ => False) (LoopResult before solver [] sets) (solveFactors before solver sets ∅)) := by
  obtain ⟨negated, partition, -⟩ := (getAllIndependentConstraintsSets_partition evaluated).elim returned
  exact solveFactors_spec recorded_nil (fun factor member => (partition.good factor member).nonempty) correct
    (fun factor member => (partition.good factor member).filled) partition.apart

theorem assertCreatedPointEvaluatesToTrue_determined {sets : List IndependentElementSet} {negated : List Expr}
    (evaluated : QueryEvaluated o query) (plain : ∀ c ∈ query.expr :: query.constraints, c.plain = true)
    (partition : Partition (negated ++ query.constraints) sets) (negates : NegatedBy o fuel query negated)
    (recorded : Recorded before sets retMap) (determines : ∀ factor ∈ sets, Determines o before factor) :
    Satisfies (· = .outOfFuel) (· = true)
      (assertCreatedPointEvaluatesToTrue o fuel query objects (objects.map (valueOf retMap)) retMap) := by
  rw [forall_mem_cons] at plain
  have right (e : Expr) (isPlain : e.plain = true) (member : e ∈ negated ++ query.constraints) :
      (created objects retMap).Defines o (created objects retMap).toAssignment e ∧
        e.eval (created objects retMap).toAssignment 1 = 1#1 := by
    obtain ⟨factor, isFactor, inFactor⟩ := mem_flatMap.mp (partition.contents.symm.subset member)
    exact recorded.defines isFactor (partition.good factor isFactor) (determines factor isFactor) inFactor isPlain
  apply assertCreatedPointEvaluatesToTrue_true evaluated (PartialAssignment.extends_toAssignment _)
  · exact fun c member => right c (plain.2 c member) (mem_append_right _ member)
  · intro neg negatedNow
    have isPlain : neg.plain = true := (createIsZero_plain plain.1).elim negatedNow
    cases negates with
    | inr negation =>
      obtain ⟨other, rfl, returned⟩ := negation
      cases negatedNow.symm.trans returned
      exact right neg isPlain (mem_append_left _ (.head _))
    | inl constant =>
      obtain ⟨c, isConstant, isFalse⟩ := constant.2
      have value : neg.eval (created objects retMap).toAssignment 1 = 1#1 :=
        (negated_eq_one_iff evaluated negatedNow _).mpr (isFalse _)
      rw [isConstant] at negatedNow
      refine ⟨⟨?_, isPlain, ?_⟩, value⟩
      · exact Expr.Evaluable.negated_safe (isConstant ▸ evaluated.boolean) negatedNow trivial
      · have fewer := ((@createIsZero_condition (.bounded o fun _ _ => 0) (.constant c) o fuel trivial).elim negatedNow).reads
        exact fun _ re isRead => nomatch fewer isRead

theorem computeInitialValues_spec {sets : List IndependentElementSet} (objects : List Symbolic.Array) (evaluated : QueryEvaluated o query)
    (returns : Returns (fun fuel => getAllIndependentConstraintsSets o fuel query) sets)
    (returned : getAllIndependentConstraintsSets o fuel query = .ok sets)
    (correct : ∀ factor ∈ sets, AnswersRightly before solver factor) :
    (OverrunsAfter before solver [] sets →
      computeInitialValues o before fuel solver query objects = .error .outOfRange) ∧
    (¬ OverrunsAfter before solver [] sets →
      Satisfies (fun fault => fault = .outOfFuel ∨ Composed o before solver query objects (.error fault))
        (fun result => Composed o before solver query objects (.ok result))
        (computeInitialValues o before fuel solver query objects)) := by
  obtain ⟨_, partition, negates, negated⟩ := (getAllIndependentConstraintsSets_partition evaluated).elim returned
  obtain ⟨overruns, answers⟩ := solveFactors_returned evaluated returned correct
  rw [computeInitialValues, returned]
  change (_ → (solveFactors before solver sets ∅ >>= _) = _) ∧ (_ → Satisfies _ _ (solveFactors before solver sets ∅ >>= _))
  constructor
  · intro beyond
    rw [overruns beyond]
    rfl
  · intro fits
    apply Satisfies.bind ((answers fits).weaken fun _ => False.elim)
    intro solved result
    match solved, result with
    | none, fails => exact ⟨sets, returns, fails⟩
    | some none, valid =>
      obtain ⟨factor, member, factorValid⟩ := valid
      intro ρ hold
      rw [← BitVector.ne_zero_iff_eq_one]
      intro isFalse
      have holds : Hold ρ factor.exprs := fun e inFactor =>
        (negated ρ).mpr ⟨hold, isFalse⟩ e (partition.contents.subset (mem_flatMap.mpr ⟨factor, member, inFactor⟩))
      exact absurd (factorValid ρ holds) (by simp [factorQuery, ConstantExpr.alloc])
    | some (some retMap), recorded =>
      have extended := PartialAssignment.extends_toAssignment (created objects retMap)
      have checked : Satisfies Stops (fun verdict => verdict = true → Hold (created objects retMap).toAssignment
          query.constraints ∧ query.expr.eval (created objects retMap).toAssignment 1 = 0#1)
          (assertCreatedPointEvaluatesToTrue o fuel query objects (objects.map (valueOf retMap)) retMap) :=
        assertCreatedPointEvaluatesToTrue_spec evaluated extended
      have succeeds (determined : Determined o before query) : Satisfies (· = .outOfFuel) (· = true)
          (assertCreatedPointEvaluatesToTrue o fuel query objects (objects.map (valueOf retMap)) retMap) := by
        obtain ⟨others, returnsOthers, determines⟩ := determined.factors
        rw [returns.unique returnsOthers] at partition recorded
        exact assertCreatedPointEvaluatesToTrue_determined evaluated determined.plain partition negates recorded determines
      change Satisfies _ _ (assertCreatedPointEvaluatesToTrue o fuel query objects
        (objects.map (valueOf retMap)) retMap >>= _)
      cases verdict : assertCreatedPointEvaluatesToTrue o fuel query objects (objects.map (valueOf retMap)) retMap with
      | error fault =>
        obtain rfl | assertion := checked.fault verdict
        · exact .inl rfl
        · refine .inr ⟨assertion, fun determined => ?_⟩
          obtain ⟨failed, rfl⟩ := assertion
          cases (succeeds determined).fault verdict
      | ok satisfied =>
        apply require_satisfies
        · intro isTrue
          obtain ⟨hold, refuted⟩ := checked.elim verdict isTrue
          exact ⟨_, hold, refuted, reads_created recorded.sized extended⟩
        · intro isFalse
          exact .inr ⟨⟨_, rfl⟩, fun determined => isFalse ((succeeds determined).elim verdict)⟩

theorem getAllIndependentConstraintsSets_ends (evaluated : QueryEvaluated o query) :
    Ends fun fuel => getAllIndependentConstraintsSets o fuel query := by
  obtain ⟨rest, returned, -⟩ := (mapM_ofExpr query.constraints fun c member => (evaluated.constraints c member).1).exists_ok
  simp only [getAllIndependentConstraintsSets, returned]
  cases query.expr.constant? with
  | some ce => exact .require (.pure _)
  | none =>
    apply (createIsZero_ends query.expr).bind
    intro neg negates
    obtain ⟨fuel, negated⟩ := negates.some_fuel
    have evaluable : neg.Evaluable o := evaluated.expr.negated evaluated.boolean negated
    obtain ⟨set, returnedNeg, -⟩ := (IndependentElementSet.ofExpr_good (evaluable_indexed evaluable)).exists_ok
    rw [returnedNeg]
    exact .pure _

theorem computeInitialValues_ends (objects : List Symbolic.Array) (evaluated : QueryEvaluated o query)
    (correct : ∀ sets, Returns (fun fuel => getAllIndependentConstraintsSets o fuel query) sets →
      ∀ factor ∈ sets, AnswersRightly before solver factor) :
    Ends fun fuel => computeInitialValues o before fuel solver query objects := by
  apply (getAllIndependentConstraintsSets_ends evaluated).bind
  intro sets returned
  obtain ⟨fuel, returnedNow⟩ := returned.some_fuel
  obtain ⟨overruns, answers⟩ := solveFactors_returned evaluated returnedNow (correct sets returned)
  by_cases beyond : OverrunsAfter before solver [] sets
  · rw [overruns beyond]
    exact .error Fault.outOfRange nofun
  · obtain ⟨solved, solvedNow, -⟩ := (answers beyond).exists_ok
    rw [solvedNow]
    match solved with
    | none => exact .pure _
    | some none => exact .pure _
    | some (some retMap) =>
      apply (assertCreatedPointEvaluatesToTrue_ends query objects _ retMap).bind
      intro satisfied _
      exact Ends.require (Halts.pure _)

end Result

end IndependentSolver

/-- The answers of the factors compose, and are put together within bounds, if and only if no
factor overruns an array of earlier ones. -/
theorem computeInitialValues_composes_iff (o : Options)
    (before : Symbolic.Array → Symbolic.Array → Bool) (solver : SolverImpl) (query : Query)
    (objects : List Symbolic.Array) (evaluated : QueryEvaluated o query)
    (correct : ∀ sets, Returns (fun fuel => getAllIndependentConstraintsSets o fuel query) sets →
      ∀ factor ∈ sets, IndependentSolver.AnswersRightly before solver factor) :
    ∃ bound, ∀ fuel, bound ≤ fuel →
      (IndependentSolver.Composed o before solver query objects
          (IndependentSolver.computeInitialValues o before fuel solver query objects) ↔
        ¬ IndependentSolver.Overruns o before solver query) := by
  obtain ⟨bound, result, ends, settled⟩ :=
    IndependentSolver.computeInitialValues_ends objects evaluated correct
  obtain ⟨enough, factored, ended, factors⟩ :=
    IndependentSolver.getAllIndependentConstraintsSets_ends evaluated
  refine ⟨max bound enough, fun fuel large => ?_⟩
  have now : getAllIndependentConstraintsSets o fuel query = factored := factors fuel (by omega)
  have partitions : Satisfies _ _ (getAllIndependentConstraintsSets o fuel query) :=
    IndependentSolver.getAllIndependentConstraintsSets_partition evaluated
  cases factored with
  | error fault =>
    have unfactored : ∀ sets, ¬ Returns (fun fuel => getAllIndependentConstraintsSets o fuel query) sets := by
      intro sets ⟨later, returned⟩
      cases (factors (max enough later) (by omega)).symm.trans
        (returned (max enough later) (by omega))
    apply iff_of_true
    · rw [IndependentSolver.computeInitialValues, now]
      obtain rfl | assertion := partitions.fault now
      · exact absurd rfl ended
      · refine ⟨assertion, fun determined => ?_⟩
        obtain ⟨sets, returns, -⟩ := determined.factors
        exact unfactored sets returns
    · exact fun ⟨sets, returns, _⟩ => unfactored sets returns
  | ok sets =>
    have returns : Returns (fun fuel => getAllIndependentConstraintsSets o fuel query) sets :=
      ⟨enough, factors⟩
    have overruns_iff : IndependentSolver.Overruns o before solver query ↔
        IndependentSolver.OverrunsAfter before solver [] sets := by
      refine ⟨fun overruns => ?_, fun overruns => ⟨sets, returns, overruns⟩⟩
      obtain ⟨others, returnsOthers, overruns⟩ := overruns
      rw [returns.unique returnsOthers]
      exact overruns
    obtain ⟨overrun, right⟩ := IndependentSolver.computeInitialValues_spec objects evaluated returns
      now (correct sets returns)
    rw [overruns_iff]
    by_cases beyond : IndependentSolver.OverrunsAfter before solver [] sets
    · rw [overrun beyond]
      refine iff_of_false (fun composed => ?_) fun fits => fits beyond
      obtain ⟨⟨failed, same⟩, -⟩ := composed
      cases same
    · refine iff_of_true ?_ beyond
      have right := right beyond
      cases computed : IndependentSolver.computeInitialValues o before fuel solver query objects with
      | error fault =>
        obtain rfl | composed := right.fault computed
        · exact absurd ((settled fuel (by omega)).symm.trans computed) ends
        · exact composed
      | ok answer => exact right.elim computed

section Example

open IndependentSolver
open Symbolic.ConstraintManager (sampleByte sampleArray sampleCondition sampleCondition_wellFormed)

def bytesOf (bytes : Symbolic.Array → Nat → BitVec 8) : SolverImpl where
  computeValidity _ := none
  computeTruth _ := none
  computeValue _ := none
  computeInitialValues _ objects := some (some (objects.map fun os => (List.range os.size).map (bytes os)))

theorem bytesOf_answersRightly {query : Query} {bytes : Symbolic.Array → Nat → BitVec 8} (evaluated : QueryEvaluated o query)
    (satisfied : Hold (fun root i => (bytes root i).setWidth root.range) query.constraints ∧
      query.expr.eval (fun root i => (bytes root i).setWidth root.range) 1 = 0#1) (sets : List IndependentElementSet)
    (returns : Returns (fun fuel => getAllIndependentConstraintsSets o fuel query) sets) :
    ∀ factor ∈ sets, AnswersRightly before (bytesOf bytes) factor := by
  obtain ⟨fuel, returned⟩ := returns.some_fuel
  obtain ⟨_, partition, -, negated⟩ := (getAllIndependentConstraintsSets_partition evaluated).elim returned
  intro factor member answer answered
  cases answered
  refine ⟨_, fun e inFactor => (negated _).mpr satisfied e ?_, rfl, ?_⟩
  · exact partition.contents.subset (mem_flatMap.mpr ⟨factor, member, inFactor⟩)
  · rw [Reads, forall₂_map_right_iff, forall₂_same]
    intro array _
    refine ⟨by simp, fun i byte found => ?_⟩
    rw [getElem?_map, Option.map_eq_some_iff] at found
    obtain ⟨j, isIndex, rfl⟩ := found
    obtain ⟨bounded, rfl⟩ := List.getElem?_eq_some_iff.mp isIndex
    rw [getElem_range]

def bytesArray (size : Nat) : Symbolic.Array := .symbolic 0 "x" size

def byteIs (size value index : Nat) : Expr :=
  .cmp .eq (.constant (.alloc value 8)) (.read (bytesArray size) .null (.constant (.alloc index 32)))

def bytesQuery (size : Nat) : Query :=
  ⟨[byteIs size 3 0, byteIs size 0 1], .constant (.alloc 0 1)⟩

def threeThenZero (_ : Symbolic.Array) (i : Nat) : BitVec 8 := if i = 0 then 3 else 0

theorem byteIs_evaluable (size value index : Nat) : (byteIs size value index).Evaluable ⟨false, true⟩ := by
  constructor
  · simp [byteIs, bytesArray, Array.isConstantArray, Array.isSymbolicArray, ConstantExpr.alloc]
  · simp [Expr.Narrow, byteIs, bytesArray, Expr.reads, UpdateNode.reads]

theorem bytesQuery_evaluated (size : Nat) : QueryEvaluated ⟨false, true⟩ (bytesQuery size) where
  constraints := by
    simp only [bytesQuery, forall_mem_cons]
    exact ⟨⟨byteIs_evaluable size 3 0, rfl⟩, ⟨byteIs_evaluable size 0 1, rfl⟩, (by simp)⟩
  expr := .constant _
  boolean := rfl

theorem bytesQuery_satisfied (size : Nat) :
    Hold (fun root i => (threeThenZero root i).setWidth root.range) (bytesQuery size).constraints ∧
      (bytesQuery size).expr.eval (fun root i => (threeThenZero root i).setWidth root.range) 1 = 0#1 := by
  simp only [Hold, bytesQuery, forall_mem_cons]
  exact ⟨⟨by rfl, by rfl, (by simp)⟩, by rfl⟩

theorem bytesQuery_correct (size : Nat) (sets : List IndependentElementSet)
    (returns : Returns (fun fuel => getAllIndependentConstraintsSets ⟨false, true⟩ fuel (bytesQuery size)) sets) :
    ∀ factor ∈ sets, AnswersRightly before (bytesOf threeThenZero) factor :=
  bytesOf_answersRightly (bytesQuery_evaluated size) (bytesQuery_satisfied size) sets returns

theorem separate_pair {S : Type} {operations : Absorption.Operations S S} {first second : S}
    (apart : operations.intersects first second = false) : separate operations [first, second] = [first, second] := by
  have passed : Absorption.pass operations [first, second] = (true, [first, second]) := by
    simp [Absorption.pass, absorb, Absorption.step, apart]
  rw [separate, passed]
  rfl

def byteFactor (size value index : Nat) : IndependentElementSet :=
  ⟨AList.insert (bytesArray size) [index] ∅, [], [byteIs size value index]⟩

theorem byteFactor_elements {size value index i : Nat} (member : i ∈ elementsOf (byteFactor size value index) array) :
    array = bytesArray size ∧ i = index := by
  rw [elementsOf, byteFactor] at member
  by_cases same : array = bytesArray size
  · subst same
    rw [AList.lookup_insert] at member
    exact ⟨rfl, mem_singleton.mp member⟩
  · rw [AList.lookup_insert_ne same] at member
    cases member

theorem bytesQuery_sets (size : Nat) :
    Returns (fun fuel => getAllIndependentConstraintsSets ⟨false, true⟩ fuel (bytesQuery size))
      [byteFactor size 3 0, byteFactor size 0 1] := by
  refine ⟨0, fun fuel _ => ?_⟩
  have collected : getAllIndependentConstraintsSets ⟨false, true⟩ fuel (bytesQuery size) =
      .ok (separate IndependentElementSet.factors [byteFactor size 3 0, byteFactor size 0 1]) := rfl
  apply collected.trans
  have found : (AList.singleton (bytesArray size) [1] : AList fun _ : Symbolic.Array => DenseSet).lookup
      (bytesArray size) = some [1] := AList.lookup_insert ∅
  rw [separate_pair]
  simp [IndependentElementSet.factors, IndependentElementSet.intersects, DenseSet.intersects, byteFactor, found]

theorem byteFactor_determines {size value index : Nat} (inside : index < size) (small : index < 2 ^ 32) :
    Determines ⟨false, true⟩ before (byteFactor size value index) where
  possible _ := by
    refine ⟨fun root _ => BitVec.ofNat root.range value, fun e member => ?_⟩
    rw [mem_singleton.mp member]
    simp only [byteIs, bytesArray, Expr.eval, UpdateNode.eval, Array.initial, ConstantExpr.alloc]
    exact congrArg BitVec.ofBool (beq_self_eq_true _)
  safe ρ _ e member := by
    rw [mem_singleton.mp member]
    simp [byteIs, bytesArray, Array.isConstantArray, Array.isSymbolicArray, ConstantExpr.alloc]
  inside ρ _ e member re isRead := by
    rw [mem_singleton.mp member] at isRead
    obtain rfl : re = ⟨bytesArray size, .null, .constant (.alloc index 32)⟩ := by
      simpa [byteIs, Expr.reads, UpdateNode.reads] using isRead
    simp [bytesArray, Symbolic.Array.symbolic, Expr.eval]
    omega

theorem bytesQuery_determined : Determined ⟨false, true⟩ before (bytesQuery 2) where
  plain := by decide
  factors := by
    refine ⟨_, bytesQuery_sets 2, ?_⟩
    simp only [forall_mem_cons]
    exact ⟨byteFactor_determines (by decide) (by decide), byteFactor_determines (by decide) (by decide), nofun⟩

/-- With room for both bytes no factor overruns, and the values are put together. -/
theorem computeInitialValues_composes_sample :
    Determined ⟨false, true⟩ (fun _ _ => true) (bytesQuery 2) ∧
    ¬ Overruns ⟨false, true⟩ (fun _ _ => true) (bytesOf threeThenZero) (bytesQuery 2) ∧
    ∃ fuel, Composed ⟨false, true⟩ (fun _ _ => true) (bytesOf threeThenZero) (bytesQuery 2) [bytesArray 2]
      (computeInitialValues ⟨false, true⟩ (fun _ _ => true) fuel (bytesOf threeThenZero)
        (bytesQuery 2) [bytesArray 2]) := by
  have fits : ¬ Overruns ⟨false, true⟩ (fun _ _ => true) (bytesOf threeThenZero) (bytesQuery 2) := by
    intro ⟨sets, returns, solved, factor, rest, split, _, _, array, _, i, member, behind⟩
    rw [← (bytesQuery_sets 2).unique returns] at split
    have either : factor ∈ [byteFactor 2 3 0, byteFactor 2 0 1] := by simp [split]
    simp only [mem_cons, not_mem_nil, or_false] at either
    obtain rfl | rfl := either
    · obtain ⟨rfl, rfl⟩ := byteFactor_elements member
      exact absurd behind (by decide)
    · obtain ⟨rfl, rfl⟩ := byteFactor_elements member
      exact absurd behind (by decide)
  obtain ⟨bound, composes⟩ := computeInitialValues_composes_iff ⟨false, true⟩ (fun _ _ => true)
    (bytesOf threeThenZero) (bytesQuery 2) [bytesArray 2] (bytesQuery_evaluated 2)
    (bytesQuery_correct 2)
  exact ⟨bytesQuery_determined, fits, bound, (composes bound (Nat.le_refl bound)).mpr fits⟩

theorem bytesQuery_overruns :
    OverrunsAfter (fun _ _ => true) (bytesOf threeThenZero) []
      [byteFactor 1 3 0, byteFactor 1 0 1] := by
  refine ⟨[_], _, [], rfl, fun factor _ => .inr ⟨_, rfl⟩, .inr ⟨_, rfl⟩, bytesArray 1, ?_, 1, ?_⟩
  · refine ⟨_, .head _, mem_calculateArrayReferences.mpr (.inl ?_)⟩
    rfl
  · rw [elementsOf, byteFactor, AList.lookup_insert]
    exact ⟨.head _, Nat.le_refl 1⟩

/-- The byte behind the end of the array is copied into the answers of the first factor. -/
theorem computeInitialValues_overruns :
    ¬ ∀ (o : Options) (before : Symbolic.Array → Symbolic.Array → Bool) (solver : SolverImpl)
      (query : Query) (objects : List Symbolic.Array), QueryEvaluated o query →
      (∀ sets, Returns (fun fuel => getAllIndependentConstraintsSets o fuel query) sets →
        ∀ factor ∈ sets, AnswersRightly before solver factor) →
      ∃ bound, ∀ fuel, bound ≤ fuel →
        Composed o before solver query objects
          (computeInitialValues o before fuel solver query objects) := by
  intro composes
  obtain ⟨bound, composed⟩ := composes ⟨false, true⟩ (fun _ _ => true) (bytesOf threeThenZero)
    (bytesQuery 1) [bytesArray 1] (bytesQuery_evaluated 1) (bytesQuery_correct 1)
  obtain ⟨enough, returned⟩ := bytesQuery_sets 1
  have outOfRange := (computeInitialValues_spec [bytesArray 1] (bytesQuery_evaluated 1)
    (bytesQuery_sets 1) (returned (max bound enough) (by omega))
    (bytesQuery_correct 1 _ (bytesQuery_sets 1))).1 bytesQuery_overruns
  have right := composed (max bound enough) (by omega)
  rw [outOfRange] at right
  obtain ⟨⟨failed, same⟩, -⟩ := right
  cases same

end Example

end NeuroMerge.Solver
