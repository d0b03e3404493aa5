import NeuroMerge.Solver.IndependentSolver
import NeuroMerge.Symbolic.EqualityReads
import NeuroMerge.Symbolic.PathCondition

/-!
# What the independent solver keeps apart

The elements of an expression cover the bytes that it depends on. So what shares
no element with a query does not change its answer.
-/

namespace NeuroMerge.Solver

open Absorption

open List hiding Disjoint
open Symbolic
open Symbolic.ConstraintManager (Hold)

variable {s b : IndependentElementSet}

theorem DenseSet.mem_foldl (rest : DenseSet) (before : Bool × DenseSet) :
    let after := rest.foldl (fun (modified, s) x =>
        if modified || !s.contains x then (true, List.insert x s) else (modified, s)) before
    (∀ x, x ∈ after.2 ↔ x ∈ before.2 ∨ x ∈ rest) ∧ (after.1 = false → before.1 = false ∧ rest ⊆ before.2) := by
  induction rest generalizing before with
  | nil => simp
  | cons head rest ih =>
    obtain ⟨modified, s⟩ := before
    rw [foldl_cons]
    dsimp only
    by_cases changes : (modified || !s.contains head) = true
    · rw [if_pos changes]
      obtain ⟨members, unchanged⟩ := ih (true, List.insert head s)
      refine ⟨?_, fun same => absurd (unchanged same).1 (by simp)⟩
      intro x
      rw [members x]
      simp only [List.mem_insert_iff, mem_cons]
      tauto
    · rw [if_neg changes]
      obtain ⟨members, unchanged⟩ := ih (modified, s)
      have present : head ∈ s := by
        simp at changes
        exact changes.2
      constructor
      · intro x
        rw [members x, mem_cons]
        constructor
        · exact fun member => member.imp id .inr
        · intro member
          obtain old | rfl | new := member
          · exact .inl old
          · exact .inl present
          · exact .inr new
      · intro same
        obtain ⟨notModified, within⟩ := unchanged same
        exact ⟨notModified, cons_subset.mpr ⟨present, within⟩⟩

theorem DenseSet.mem_add (s b : DenseSet) : (∀ x, x ∈ (DenseSet.add s b).2 ↔ x ∈ s ∨ x ∈ b) ∧ ((DenseSet.add s b).1 = false → b ⊆ s) := by
  obtain ⟨members, unchanged⟩ := DenseSet.mem_foldl b (false, s)
  exact ⟨members, fun same => (unchanged same).2⟩

namespace IndependentElementSet

def covers (s : IndependentElementSet) : Set (Symbolic.Array × Nat) :=
  {byte | byte.1 ∈ s.wholeObjects ∨ ∃ dis ∈ s.elements.lookup byte.1, byte.2 ∈ dis}

theorem mem_covers {byte : Symbolic.Array × Nat} : byte ∈ s.covers ↔
    byte.1 ∈ s.wholeObjects ∨ ∃ dis ∈ s.elements.lookup byte.1, byte.2 ∈ dis := Iff.rfl

theorem intersects_apart (separate : s.intersects b = false) : Disjoint s.covers b.covers := by
  rw [intersects, Bool.or_eq_false_iff, any_eq_false, any_eq_false] at separate
  obtain ⟨wholes, elements⟩ := separate
  rw [Set.disjoint_left]
  intro byte inFirst inSecond
  cases inFirst with
  | inl whole =>
    have apart := wholes byte.1 whole
    simp only [Bool.or_eq_true, contains_iff_mem, not_or] at apart
    cases inSecond with
    | inl inWhole => exact apart.1 inWhole
    | inr inElements =>
      obtain ⟨dis, found, -⟩ := inElements
      exact apart.2 (Option.isSome_of_mem found)
  | inr element =>
    obtain ⟨dis, found, member⟩ := element
    have apart := elements ⟨byte.1, dis⟩ (AList.mem_lookup_iff.mp found)
    simp only [Bool.or_eq_true, contains_iff_mem, not_or] at apart
    cases inSecond with
    | inl inWhole => exact apart.1 inWhole
    | inr inElements =>
      obtain ⟨other, foundOther, memberOther⟩ := inElements
      rw [Option.mem_def.mp foundOther] at apart
      apply apart.2
      exact any_eq_true.mpr ⟨byte.2, member, List.contains_iff_mem.mpr memberOther⟩

/-- A step of the union takes in the bytes, and says so if it had not all of them. -/
structure Added (before after : Bool × IndependentElementSet)
    (bytes : Set (Symbolic.Array × Nat)) : Prop where
  covers : after.2.covers = before.2.covers ∪ bytes
  unchanged : after.1 = false → before.1 = false ∧ bytes ⊆ before.2.covers
  exprs : after.2.exprs = before.2.exprs

theorem Added.trans {first second third : Bool × IndependentElementSet}
    {bytes further : Set (Symbolic.Array × Nat)} (added : Added first second bytes)
    (next : Added second third further) : Added first third (bytes ∪ further) where
  covers := by rw [next.covers, added.covers, Set.union_assoc]
  unchanged same := by
    obtain ⟨notModified, within⟩ := next.unchanged same
    obtain ⟨notBefore, withinBefore⟩ := added.unchanged notModified
    rw [added.covers, Set.union_eq_left.mpr withinBefore] at within
    exact ⟨notBefore, Set.union_subset withinBefore within⟩
  exprs := next.exprs.trans added.exprs

theorem Added.foldl {α : Type} {step : Bool × IndependentElementSet → α → Bool × IndependentElementSet}
    {bytes : α → Set (Symbolic.Array × Nat)} (steps : ∀ before item, Added before (step before item) (bytes item)) (items : List α)
    (before : Bool × IndependentElementSet) : Added before (items.foldl step before) {byte | ∃ item ∈ items, byte ∈ bytes item} := by
  induction items generalizing before with
  | nil => exact ⟨by simp, fun same => ⟨same, by simp⟩, rfl⟩
  | cons item items ih =>
    have all := (steps before item).trans (ih (step before item))
    have same : {byte | ∃ other ∈ item :: items, byte ∈ bytes other} = bytes item ∪ {byte | ∃ other ∈ items, byte ∈ bytes other} := by
      ext byte
      simp
    rw [same]
    exact all

theorem addWhole_added (before : Bool × IndependentElementSet) (array : Symbolic.Array) :
    Added before (addWhole before array) {byte | byte.1 = array} := by
  obtain ⟨modified, s⟩ := before
  rw [addWhole]
  by_cases isElement : (s.elements.lookup array).isSome = true
  · rw [if_pos isElement]
    refine ⟨?_, nofun, rfl⟩
    ext byte
    simp only [mem_covers, List.mem_insert_iff, Set.mem_union, Set.mem_ofPred_eq]
    by_cases same : byte.1 = array
    · simp [same]
    · rw [AList.lookup_erase_ne same]
      simp [same]
  · rw [if_neg isElement]
    by_cases isWhole : array ∈ s.wholeObjects
    · rw [if_pos isWhole]
      have within : {byte : Symbolic.Array × Nat | byte.1 = array} ⊆ s.covers := by
        intro byte same
        exact .inl (same ▸ isWhole)
      exact ⟨(Set.union_eq_left.mpr within).symm, fun same => ⟨same, within⟩, rfl⟩
    · rw [if_neg isWhole]
      refine ⟨?_, nofun, rfl⟩
      ext byte
      simp only [mem_covers, List.mem_insert_iff, Set.mem_union, Set.mem_ofPred_eq]
      rw [or_assoc, or_comm]

theorem addElements_added (before : Bool × IndependentElementSet) (element : Sigma fun _ : Symbolic.Array => DenseSet) :
    Added before (addElements before element) {byte | byte.1 = element.1 ∧ byte.2 ∈ element.2} := by
  obtain ⟨modified, s⟩ := before
  obtain ⟨array, new⟩ := element
  rw [addElements]
  by_cases isWhole : array ∈ s.wholeObjects
  · rw [if_pos isWhole]
    have within : {byte : Symbolic.Array × Nat | byte.1 = array ∧ byte.2 ∈ new} ⊆ s.covers := by
      intro byte same
      exact .inl (same.1 ▸ isWhole)
    exact ⟨(Set.union_eq_left.mpr within).symm, fun same => ⟨same, within⟩, rfl⟩
  · rw [if_neg isWhole]
    cases found : s.elements.lookup array with
    | none =>
      refine ⟨?_, nofun, rfl⟩
      ext ⟨root, i⟩
      simp only [mem_covers, Set.mem_union, Set.mem_ofPred_eq]
      by_cases same : root = array
      · subst same
        simp [found]
      · rw [AList.lookup_insert_ne same]
        simp [same]
    | some dis =>
      obtain ⟨members, unchanged⟩ := DenseSet.mem_add dis new
      refine ⟨?_, ?_, rfl⟩
      · ext ⟨root, i⟩
        simp only [mem_covers, Set.mem_union, Set.mem_ofPred_eq]
        by_cases same : root = array
        · subst same
          simp [found, members, or_assoc]
        · rw [AList.lookup_insert_ne same]
          simp [same]
      · intro notModified
        simp only [Bool.or_eq_false_iff] at notModified
        refine ⟨notModified.1, ?_⟩
        intro byte isNew
        refine .inr ⟨dis, ?_, unchanged notModified.2 isNew.2⟩
        rw [isNew.1]
        exact found

theorem add_added (s b : IndependentElementSet) : Added (false, { s with exprs := s.exprs ++ b.exprs }) (s.add b) b.covers := by
  have wholes := Added.foldl addWhole_added b.wholeObjects (false, { s with exprs := s.exprs ++ b.exprs })
  have elements := Added.foldl addElements_added b.elements.entries
    (b.wholeObjects.foldl addWhole (false, { s with exprs := s.exprs ++ b.exprs }))
  have all := wholes.trans elements
  have same : b.covers = {byte | ∃ array ∈ b.wholeObjects, byte.1 = array} ∪
      {byte | ∃ element ∈ b.elements.entries, byte.1 = element.1 ∧ byte.2 ∈ element.2} := by
    ext byte
    refine or_congr (by simp) ?_
    constructor
    · intro covered
      obtain ⟨dis, found, member⟩ := covered
      exact ⟨⟨byte.1, dis⟩, AList.mem_lookup_iff.mp found, rfl, member⟩
    · intro covered
      obtain ⟨⟨array, dis⟩, found, isArray, member⟩ := covered
      rw [isArray]
      exact ⟨dis, AList.mem_lookup_iff.mpr found, member⟩
  rw [same]
  exact all

theorem factors_laws : Absorption.Laws factors covers covers where
  apart := intersects_apart
  added s b := (add_added s b).covers
  unchanged {s b} same := by
    have added := add_added s b
    exact added.covers.trans (Set.union_eq_left.mpr (added.unchanged same).2)

theorem worklist_laws : Absorption.Laws worklist covers fun item => item.2.covers where
  apart separate := (intersects_apart separate).symm
  added s item := (add_added s item.2).covers
  unchanged {s item} same := by
    have added := add_added s item.2
    exact added.covers.trans (Set.union_eq_left.mpr (added.unchanged same).2)

/-- What the constructor needs of a read: a constant index has to fit into 32 bits. -/
def Indexed (re : ReadExpr) : Prop :=
  re.index.width = re.root.domain ∧ re.root.domain ≤ 32

theorem addRead_spec (s : IndependentElementSet) {re : ReadExpr} (indexed : Indexed re) :
    Satisfies (fun _ => False) (fun s' => s.covers ⊆ s'.covers ∧ (¬ re.Fixed → re.bytes ⊆ s'.covers) ∧ s'.exprs = s.exprs)
      (addRead s re) := by
  obtain ⟨width, narrow⟩ := indexed
  rw [addRead]
  split
  case isTrue fixed => exact ⟨Set.Subset.refl _, fun notFixed => absurd fixed notFixed, rfl⟩
  case isFalse =>
    split
    case isTrue isWhole =>
      refine ⟨Set.Subset.refl _, fun _ byte reached => .inl ?_, rfl⟩
      rw [reached.1]
      exact isWhole
    case isFalse =>
      cases isConstant : re.index.constant? with
      | some ce =>
        rw [Expr.constant?_eq_some] at isConstant
        rw [isConstant] at width
        have sameWidth : ce.width = re.root.domain := width
        have fits : ce.width ≤ 32 := by omega
        dsimp only
        rw [require, if_pos fits]
        refine ⟨?_, ?_, rfl⟩
        · intro byte covered
          obtain ⟨root, i⟩ := byte
          refine covered.imp id fun element => ?_
          obtain ⟨dis, found, member⟩ := element
          by_cases same : root = re.root
          · subst same
            refine ⟨_, AList.lookup_insert _, ?_⟩
            rw [Option.mem_def.mp found]
            exact mem_insert_of_mem member
          · exact ⟨dis, by rwa [AList.lookup_insert_ne same], member⟩
        · intro _ byte reached
          obtain ⟨root, i⟩ := byte
          obtain ⟨isRoot, ρ, isIndex⟩ := reached
          dsimp only at isRoot isIndex
          subst isRoot
          refine .inr ⟨_, AList.lookup_insert _, ?_⟩
          have value : i = ce.value.toNat := by
            rw [isIndex, isConstant, Expr.eval, BitVec.toNat_setWidth, ← sameWidth]
            exact Nat.mod_eq_of_lt ce.value.isLt
          rw [value]
          exact mem_insert_self
      | none =>
        refine ⟨?_, ?_, rfl⟩
        · intro byte covered
          obtain ⟨root, i⟩ := byte
          cases covered with
          | inl isWhole => exact .inl (mem_insert_of_mem isWhole)
          | inr element =>
            obtain ⟨dis, found, member⟩ := element
            by_cases same : root = re.root
            · subst same
              exact .inl mem_insert_self
            · exact .inr ⟨dis, by rwa [AList.lookup_erase_ne same], member⟩
        · intro _ byte reached
          rw [mem_covers, reached.1]
          exact .inl mem_insert_self

/-- The elements of an expression cover all that its value depends on. -/
structure Represents (s : IndependentElementSet) (collected : List Expr) : Prop where
  exprs : s.exprs = collected
  covers : ∀ e ∈ collected, e.freeBytes ⊆ s.covers

theorem ofExpr_spec {e : Expr} (indexed : ∀ re ∈ e.reads, Indexed re) :
    Satisfies (fun _ => False) (fun s => s.Represents [e]) (ofExpr e) := by
  have folded : Satisfies (fun _ => False) (fun s => (∀ re ∈ findReads e true, ¬ re.Fixed → re.bytes ⊆ s.covers) ∧ s.exprs = [e])
      (ofExpr e) := by
    apply Satisfies.foldlM (fun (seen : List ReadExpr) (s : IndependentElementSet) =>
      (∀ re ∈ seen, ¬ re.Fixed → re.bytes ⊆ s.covers) ∧ s.exprs = [e]) ⟨nofun, rfl⟩
    intro seen re remaining s split invariant
    have found : re ∈ findReads e true := by simp [split]
    apply (addRead_spec s (indexed re (findReads_sound e true found))).mono
    intro s' added
    obtain ⟨grows, here, same⟩ := added
    refine ⟨?_, same.trans invariant.2⟩
    intro other member notFixed
    cases List.mem_append.mp member with
    | inl earlier => exact Set.Subset.trans (invariant.1 other earlier notFixed) grows
    | inr new =>
      rw [mem_singleton.mp new] at notFixed ⊢
      exact here notFixed
  apply folded.mono
  intro s collected
  refine ⟨collected.2, ?_⟩
  intro other member byte reached
  rw [mem_singleton.mp member] at reached
  obtain ⟨re, isRead, notFixed, inBytes⟩ := reached
  exact collected.1 re (findReads_complete e isRead) notFixed inBytes

theorem Represents.add {exprs further : List Expr} (first : s.Represents exprs)
    (second : b.Represents further) : (s.add b).2.Represents (exprs ++ further) := by
  have added := add_added s b
  have covers : (s.add b).2.covers = s.covers ∪ b.covers := added.covers
  constructor
  · rw [added.exprs, ← first.exprs, ← second.exprs]
  · intro e member
    rw [covers]
    cases List.mem_append.mp member with
    | inl inFirst => exact Set.Subset.trans (first.covers e inFirst) Set.subset_union_left
    | inr inSecond => exact Set.Subset.trans (second.covers e inSecond) Set.subset_union_right

end IndependentElementSet

open IndependentElementSet

variable {guards : Guards} {o : Options} {e : Expr} {constraints kept dropped : List Expr}

theorem implies_iff_of_apart
    (apart : ∀ d ∈ dropped, ∀ k ∈ e :: kept, Disjoint d.freeBytes k.freeBytes)
    (possible : ∃ ρ, Hold ρ dropped ∧ ∀ d ∈ dropped, d.InBounds ρ) :
    (∀ ρ, Hold ρ kept → e.eval ρ 1 = 1#1) ↔ ∀ ρ, Hold ρ kept → Hold ρ dropped → e.eval ρ 1 = 1#1 := by
  constructor
  · exact fun implied ρ hold _ => implied ρ hold
  · intro implied ρ hold
    obtain ⟨ρ₀, hold₀, inBounds⟩ := possible
    let bytes : Set (Symbolic.Array × Nat) := {byte | byte.1.isSymbolicArray = true ∧ ∃ d ∈ dropped, byte ∈ d.freeBytes}
    have outside (k : Expr) (member : k ∈ e :: kept) : k.eval (splice bytes ρ₀ ρ) 1 = k.eval ρ 1 := by
      apply Expr.eval_splice_outside
      · intro byte free inBytes
        obtain ⟨-, d, isDropped, inDropped⟩ := inBytes
        exact Set.disjoint_left.mp (apart d isDropped k member) inDropped free
      · exact fun byte inBytes => inBytes.1
    rw [← outside e (by simp)]
    apply implied
    · intro k member
      rw [outside k (by simp [member])]
      exact hold k member
    · intro d member
      have inside : ∀ byte ∈ d.freeBytes, byte.1.isSymbolicArray = true → byte ∈ bytes :=
        fun byte free symbolic => ⟨symbolic, d, member, free⟩
      rw [Expr.eval_splice_inside (inBounds d member) inside]
      exact hold₀ d member

/-- What slicing asks of an expression: arrays have at most 32 address bits. -/
structure Sliceable (guards : Guards) (e : Expr) : Prop where
  wellFormed : e.WellFormed guards
  narrow : ∀ re ∈ e.reads, re.root.domain ≤ 32

theorem Sliceable.indexed (sliceable : Sliceable guards e) : ∀ re ∈ e.reads, Indexed re :=
  fun re member => ⟨sliceable.wellFormed.index_width re member, sliceable.narrow re member⟩

theorem items_spec (sliceable : ∀ c ∈ constraints, Sliceable guards c) :
    ∃ items, (constraints.mapM fun c => Prod.mk c <$> ofExpr c) = .ok items ∧
      items.map Prod.fst = constraints ∧ ∀ item ∈ items, item.1.freeBytes ⊆ item.2.covers := by
  have collected : Satisfies (fun _ => False) (List.Forall₂ (fun c item => item.1 = c ∧ item.2.Represents [c]) constraints)
      (constraints.mapM fun c => Prod.mk c <$> ofExpr c) := by
    apply Satisfies.mapM
    intro c member
    obtain ⟨set, returned, represents⟩ := (ofExpr_spec (sliceable c member).indexed).exists_ok
    rw [returned]
    exact ⟨rfl, represents⟩
  obtain ⟨items, returned, related⟩ := collected.exists_ok
  refine ⟨items, returned, ?_⟩
  clear returned collected sliceable
  induction related with
  | nil => exact ⟨rfl, nofun⟩
  | cons head _ ih =>
    obtain ⟨same, represents⟩ := head
    constructor
    · rw [map_cons, ih.1, same]
    · rw [forall_mem_cons]
      exact ⟨represents.covers _ (by simp [same]), ih.2⟩

theorem factors_spec (sliceable : ∀ c ∈ constraints, Sliceable guards c) :
    ∃ sets, constraints.mapM ofExpr = .ok sets ∧ sets.flatMap exprs = constraints ∧ ∀ set ∈ sets, ∃ c, set.Represents [c] := by
  have collected : Satisfies (fun _ => False) (List.Forall₂ (fun c set => Represents set [c]) constraints) (constraints.mapM ofExpr) := by
    apply Satisfies.mapM
    intro c member
    exact ofExpr_spec (sliceable c member).indexed
  obtain ⟨sets, returned, related⟩ := collected.exists_ok
  refine ⟨sets, returned, ?_⟩
  clear returned collected sliceable
  induction related with
  | nil => exact ⟨rfl, nofun⟩
  | cons head _ ih =>
    constructor
    · rw [flatMap_cons, ih.1, head.exprs, singleton_append]
    · rw [forall_mem_cons]
      exact ⟨⟨_, head⟩, ih.2⟩

theorem getIndependentConstraints_spec {query : Query} (sliceable : ∀ e ∈ query.expr :: query.constraints, Sliceable guards e) :
    ∃ eltsClosure result dropped, getIndependentConstraints query = .ok (eltsClosure, result) ∧
      (result ++ dropped).Perm query.constraints ∧ ∀ d ∈ dropped, ∀ k ∈ query.expr :: result, Disjoint d.freeBytes k.freeBytes := by
  rw [forall_mem_cons] at sliceable
  obtain ⟨elts, eltsReturned, represents⟩ := (ofExpr_spec sliceable.1.indexed).exists_ok
  obtain ⟨items, itemsReturned, firsts, itemCovers⟩ := items_spec sliceable.2
  obtain ⟨absorbed, left, taken, perm, grows, covered, apart⟩ := close_spec worklist_laws elts [] items
  have within (item) (member : item ∈ absorbed ++ left) : item.1.freeBytes ⊆ item.2.covers := itemCovers item (perm.subset member)
  refine ⟨(close worklist elts [] items).1, absorbed.map Prod.fst, left.map Prod.fst, ?_, ?_, ?_⟩
  · rw [getIndependentConstraints, eltsReturned, itemsReturned]
    change Except.ok (_, List.map Prod.fst (close worklist elts [] items).2) = _
    rw [taken, nil_append]
  · rw [← map_append, ← firsts]
    exact perm.map Prod.fst
  · intro d isDropped k isKept
    obtain ⟨item, isLeft, rfl⟩ := mem_map.mp isDropped
    apply Disjoint.mono (within item (by simp [isLeft])) _ (apart item isLeft).symm
    cases List.mem_cons.mp isKept with
    | inl isQuery =>
      rw [isQuery]
      exact Set.Subset.trans (represents.covers query.expr (by simp)) grows
    | inr isResult =>
      obtain ⟨other, isAbsorbed, rfl⟩ := mem_map.mp isResult
      exact Set.Subset.trans (within other (by simp [isAbsorbed])) (covered other isAbsorbed)

theorem separate_spec {sets : List IndependentElementSet} (represent : ∀ set ∈ sets, ∃ c, set.Represents [c]) :
    ((Absorption.separate factors sets).flatMap exprs).Perm (sets.flatMap exprs) ∧
      (∀ factor ∈ Absorption.separate factors sets, factor.exprs ≠ []) ∧
      (Absorption.separate factors sets).Pairwise fun first second =>
        ∀ e ∈ first.exprs, ∀ e' ∈ second.exprs, Disjoint e.freeBytes e'.freeBytes := by
  have good : ∀ factor ∈ Absorption.separate factors sets, ∃ collected, collected ≠ [] ∧ factor.Represents collected := by
    apply separate_preserves
    · intro s item first second
      obtain ⟨exprs, nonempty, represents⟩ := first
      obtain ⟨further, -, representsItem⟩ := second
      exact ⟨exprs ++ further, by simp [nonempty], represents.add representsItem⟩
    · intro set member
      obtain ⟨c, represents⟩ := represent set member
      exact ⟨[c], by simp, represents⟩
  refine ⟨separate_contents fun s item => (add_added s item).exprs, ?_, ?_⟩
  · intro factor member
    obtain ⟨collected, nonempty, represents⟩ := good factor member
    rw [represents.exprs]
    exact nonempty
  · apply (separate_disjoint factors_laws).imp_of_mem
    intro first second isFirst isSecond apart e inFirst e' inSecond
    obtain ⟨collected, -, represents⟩ := good first isFirst
    obtain ⟨others, -, representsSecond⟩ := good second isSecond
    rw [represents.exprs] at inFirst
    rw [representsSecond.exprs] at inSecond
    exact Disjoint.mono (represents.covers e inFirst) (representsSecond.covers e' inSecond) apart

def Negates (o : Options) (query : Query) (negated : List Expr) : Prop :=
  match query.expr.constant? with
  | some _ => negated = []
  | none => ∃ neg, negated = [neg] ∧ Returns (fun fuel => createIsZero o fuel query.expr) neg

theorem createIsZero_returns (o : Options) (sliceable : Sliceable guards e) :
    ∃ neg, Returns (fun fuel => createIsZero o fuel e) neg ∧ ∀ re ∈ neg.reads, Indexed re := by
  obtain ⟨neg, condition, returns⟩ :=
    (createIsZero_ends (o := o) e).returns fun fuel => createIsZero_condition o fuel sliceable.wellFormed
  exact ⟨neg, returns, fun re member => sliceable.indexed re (condition.reads member)⟩

/-- Unless the query is the constant true, all is partitioned into factors that share
nothing. -/
theorem getAllIndependentConstraintsSets_spec (o : Options) {query : Query}
    (sliceable : ∀ e ∈ query.expr :: query.constraints, Sliceable guards e)
    (notTrue : ∀ ce, query.expr.constant? = some ce → ce.isFalse = true) :
    ∃ negated sets, Negates o query negated ∧
      Returns (fun fuel => getAllIndependentConstraintsSets o fuel query) sets ∧
      (sets.flatMap exprs).Perm (negated ++ query.constraints) ∧ (∀ set ∈ sets, set.exprs ≠ []) ∧
      sets.Pairwise fun first second => ∀ e ∈ first.exprs, ∀ e' ∈ second.exprs, Disjoint e.freeBytes e'.freeBytes := by
  rw [forall_mem_cons] at sliceable
  obtain ⟨rest, restReturned, restExprs, restRepresent⟩ := factors_spec sliceable.2
  cases isConstant : query.expr.constant? with
  | some ce =>
    obtain ⟨perm, nonempty, apart⟩ := separate_spec restRepresent
    refine ⟨[], Absorption.separate factors rest, ?_, ⟨0, fun fuel _ => ?_⟩, ?_, nonempty, apart⟩
    · rw [Negates, isConstant]
    · dsimp only
      rw [getAllIndependentConstraintsSets, isConstant, restReturned]
      dsimp only
      rw [require, if_pos (notTrue ce isConstant)]
      rfl
    · rwa [restExprs] at perm
  | none =>
    obtain ⟨neg, ⟨bound, negReturns⟩, indexed⟩ := createIsZero_returns o sliceable.1
    obtain ⟨first, firstReturned, represents⟩ := (ofExpr_spec indexed).exists_ok
    have represent : ∀ set ∈ first :: rest, ∃ c, set.Represents [c] := by
      rw [forall_mem_cons]
      exact ⟨⟨neg, represents⟩, restRepresent⟩
    obtain ⟨perm, nonempty, apart⟩ := separate_spec represent
    refine ⟨[neg], Absorption.separate factors (first :: rest), ?_, ⟨bound, fun fuel enough => ?_⟩, ?_, nonempty, apart⟩
    · rw [Negates, isConstant]
      exact ⟨neg, rfl, bound, negReturns⟩
    · dsimp only
      rw [getAllIndependentConstraintsSets, isConstant, restReturned]
      have built : createIsZero o fuel query.expr = .ok neg := negReturns fuel enough
      rw [built]
      change (List.singleton <$> ofExpr neg >>= fun first => _) = _
      rw [firstReturned]
      rfl
    · rwa [flatMap_cons, restExprs, represents.exprs] at perm

/-- Slicing keeps the answers, where no constant array is read out of its bounds, and
drops only constraints that share no byte with the rest; the factors of a query that
is not the constant true are a partition of the same kind. -/
theorem slicing_preserves_answers (o : Options) (query : Query)
    (sliceable : ∀ e ∈ query.expr :: query.constraints, Sliceable guards e) :
    (∃ eltsClosure result dropped, getIndependentConstraints query = .ok (eltsClosure, result) ∧
      (result ++ dropped).Perm query.constraints ∧
      (∀ d ∈ dropped, ∀ k ∈ query.expr :: result, Disjoint d.freeBytes k.freeBytes) ∧
      ((∃ ρ, Hold ρ query.constraints ∧ ∀ c ∈ query.constraints, c.InBounds ρ) →
        ((∀ ρ, Hold ρ result → query.expr.eval ρ 1 = 1#1) ↔
          ∀ ρ, Hold ρ query.constraints → query.expr.eval ρ 1 = 1#1))) ∧
    ((∀ ce, query.expr.constant? = some ce → ce.isFalse = true) →
      ∃ negated sets, Negates o query negated ∧
        Returns (fun fuel => getAllIndependentConstraintsSets o fuel query) sets ∧
        (sets.flatMap exprs).Perm (negated ++ query.constraints) ∧ (∀ set ∈ sets, set.exprs ≠ []) ∧
        sets.Pairwise fun first second =>
          ∀ e ∈ first.exprs, ∀ e' ∈ second.exprs, Disjoint e.freeBytes e'.freeBytes) := by
  constructor
  · obtain ⟨eltsClosure, result, dropped, returned, perm, apart⟩ :=
      getIndependentConstraints_spec sliceable
    refine ⟨eltsClosure, result, dropped, returned, perm, apart, ?_⟩
    intro possible
    obtain ⟨ρ₀, hold, inBounds⟩ := possible
    have isConstraint {d : Expr} (member : d ∈ dropped) : d ∈ query.constraints :=
      perm.subset (mem_append_right result member)
    have implies := implies_iff_of_apart apart
      ⟨ρ₀, fun d member => hold d (isConstraint member),
        fun d member => inBounds d (isConstraint member)⟩
    have split (ρ : Assignment) :
        Hold ρ query.constraints ↔ Hold ρ result ∧ Hold ρ dropped := by
      simp only [Hold, ← perm.mem_iff, mem_append, or_imp, forall_and]
    simp only [split, and_imp]
    exact implies
  · exact getAllIndependentConstraintsSets_spec o sliceable

section Example

def table : Symbolic.Array := ⟨1, "table", 1, 32, 8, [5#8], .inr rfl⟩

def first : Symbolic.Array := .symbolic 2 "first" 1

def second : Symbolic.Array := .symbolic 3 "second" 1

def lookupIsFive (root : Symbolic.Array) : Expr :=
  .cmp .eq (.constant ⟨8, 5#8⟩)
    (.read table .null (.zext (.read root .null (.constant (.alloc 0 32))) 32))

def behindIsSeven : Expr :=
  .cmp .eq (.constant ⟨8, 7#8⟩) (.read table .null (.constant (.alloc 1 32)))

def sampleQuery : Query := ⟨[lookupIsFive first], lookupIsFive second⟩

theorem sample_sliceable : ∀ e ∈ sampleQuery.expr :: sampleQuery.constraints, Sliceable ⟨fun _ _ => True, fun _ => True⟩ e := by
  intro e member
  obtain _ | ⟨_, _ | ⟨_, _ | _⟩⟩ := member
  · constructor
    · simp [sampleQuery, lookupIsFive, table, second, ConstantExpr.alloc]
    · intro re isRead
      obtain _ | ⟨_, _ | ⟨_, _ | _⟩⟩ := isRead <;> decide
  · constructor
    · simp [lookupIsFive, table, first, ConstantExpr.alloc]
    · intro re isRead
      obtain _ | ⟨_, _ | ⟨_, _ | _⟩⟩ := isRead <;> decide

theorem sample_possible : Hold (fun _ _ => 0) sampleQuery.constraints ∧ ∀ c ∈ sampleQuery.constraints, c.InBounds fun _ _ => 0 := by
  constructor
  · intro c member
    cases mem_singleton.mp member
    decide
  · intro c member re isRead
    cases mem_singleton.mp member
    obtain _ | ⟨_, _ | ⟨_, _ | _⟩⟩ := isRead <;> decide

theorem slicing_preserves_answers_sample :
    (∃ eltsClosure result, getIndependentConstraints sampleQuery = .ok (eltsClosure, result) ∧
      ((∀ ρ, Hold ρ result → sampleQuery.expr.eval ρ 1 = 1#1) ↔
        ∀ ρ, Hold ρ sampleQuery.constraints → sampleQuery.expr.eval ρ 1 = 1#1)) ∧
    ∃ (negated : List Expr) (sets : List IndependentElementSet),
      Negates ⟨false, true⟩ sampleQuery negated ∧ (sets.flatMap exprs).Perm (negated ++ sampleQuery.constraints) := by
  obtain ⟨slices, factors⟩ := slicing_preserves_answers ⟨false, true⟩ sampleQuery sample_sliceable
  obtain ⟨eltsClosure, result, -, returned, -, -, implies⟩ := slices
  obtain ⟨negated, sets, negates, -, perm, -, -⟩ := factors nofun
  exact ⟨⟨eltsClosure, result, returned, implies ⟨_, sample_possible⟩⟩, negated, sets, negates, perm⟩

/-- The constraint that is dropped reads the table like the query; a byte behind the
end of the table is dropped though the query depends on it; and the constant true has
no factors. -/
theorem slicing_ignores_constant_arrays :
    (Prod.snd <$> getIndependentConstraints sampleQuery = .ok [] ∧
      Hold (fun _ _ => 0) sampleQuery.constraints ∧
      (table, 0) ∈ (lookupIsFive first).bytes ∧ (table, 0) ∈ sampleQuery.expr.bytes) ∧
    (Prod.snd <$> getIndependentConstraints ⟨[behindIsSeven], behindIsSeven⟩ = .ok [] ∧
      (∃ ρ, Hold ρ [behindIsSeven]) ∧ (∀ ρ, Hold ρ [behindIsSeven] → behindIsSeven.eval ρ 1 = 1#1) ∧
      ¬ ∀ ρ, Hold ρ [] → behindIsSeven.eval ρ 1 = 1#1) ∧
    ∀ fuel sets, getAllIndependentConstraintsSets ⟨false, true⟩ fuel
      ⟨[], .constant (.alloc 1 1)⟩ ≠ .ok sets := by
  have inFirst : (table, 0) ∈ (lookupIsFive first).bytes :=
    ⟨_, .head _, rfl, fun _ _ => 0, by decide⟩
  have inSecond : (table, 0) ∈ (lookupIsFive second).bytes :=
    ⟨_, .head _, rfl, fun _ _ => 0, by decide⟩
  refine ⟨⟨?_, sample_possible.1, inFirst, inSecond⟩, ⟨?_, ?_, ?_, ?_⟩, ?_⟩
  · change Except.ok (List.map Prod.fst (close worklist _ [] _).2) = _
    rw [close_of_done (by decide)]
    rfl
  · change Except.ok (List.map Prod.fst (close worklist _ [] _).2) = _
    rw [close_of_done (by decide)]
    rfl
  · refine ⟨fun _ _ => 7, ?_⟩
    intro c member
    cases mem_singleton.mp member
    decide
  · exact fun ρ hold => hold behindIsSeven (by simp)
  · intro always
    have contradictory := always (fun _ _ => 0) nofun
    revert contradictory
    decide
  · intro fuel sets returned
    cases returned

end Example

end NeuroMerge.Solver
