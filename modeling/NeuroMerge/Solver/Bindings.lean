import NeuroMerge.Solver.CexCachingSolver
import NeuroMerge.Symbolic.EvaluatorProperties

/-!
# The values of arrays as bindings

A binding of all the symbolic arrays of an expression to what a solution has for them is a
solution too, and the values read back from a binding are those of the binding.
-/

namespace NeuroMerge.Solver

open List Symbolic PartialAssignment
open Symbolic.ConstraintManager (Hold)

variable {ρ : Assignment} {e : Expr} {array : Symbolic.Array}

section Objects

mutual

theorem mem_symbolicObjects : ∀ e : Expr, array ∈ symbolicObjects e ↔
    array.isSymbolicArray = true ∧ ∃ re ∈ e.reads, re.root = array
  | .constant _ => by simp [symbolicObjects, Expr.reads]
  | .notOptimized src => by rw [symbolicObjects, Expr.reads, mem_symbolicObjects src]
  | .read root head index => by
    have own : array ∈ (if root.isSymbolicArray = true then [root] else []) ↔ array.isSymbolicArray = true ∧ root = array := by
      split
      · rename_i symbolic
        rw [mem_singleton]
        exact ⟨fun same => ⟨same ▸ symbolic, same.symm⟩, fun both => both.2.symm⟩
      · rename_i constant
        simp only [not_mem_nil, false_iff]
        intro ⟨symbolic, same⟩
        exact constant (same ▸ symbolic)
    simp only [symbolicObjects, Expr.reads, mem_append, mem_cons, own,
      mem_symbolicObjects index, mem_updatedObjects head, or_and_right, exists_or,
      exists_eq_left, ← and_or_left]
    exact and_congr_right fun _ => or_comm.trans or_assoc
  | .select cond trueExpr falseExpr => by
    simp only [symbolicObjects, Expr.reads, mem_append, mem_symbolicObjects cond,
      mem_symbolicObjects trueExpr, mem_symbolicObjects falseExpr, or_and_right, exists_or,
      and_or_left]
  | .concat left right => by
    simp only [symbolicObjects, Expr.reads, mem_append, mem_symbolicObjects left,
      mem_symbolicObjects right, or_and_right, exists_or, and_or_left]
  | .extract expr _ _ => by rw [symbolicObjects, Expr.reads, mem_symbolicObjects expr]
  | .not expr => by rw [symbolicObjects, Expr.reads, mem_symbolicObjects expr]
  | .zext src _ => by rw [symbolicObjects, Expr.reads, mem_symbolicObjects src]
  | .sext src _ => by rw [symbolicObjects, Expr.reads, mem_symbolicObjects src]
  | .binary _ left right => by
    simp only [symbolicObjects, Expr.reads, mem_append, mem_symbolicObjects left,
      mem_symbolicObjects right, or_and_right, exists_or, and_or_left]
  | .cmp _ left right => by
    simp only [symbolicObjects, Expr.reads, mem_append, mem_symbolicObjects left,
      mem_symbolicObjects right, or_and_right, exists_or, and_or_left]

theorem mem_updatedObjects : ∀ head : UpdateNode, array ∈ updatedObjects head ↔
    array.isSymbolicArray = true ∧ ∃ re ∈ head.reads, re.root = array
  | .null => by simp [updatedObjects, UpdateNode.reads]
  | .node position value next => by
    simp only [updatedObjects, UpdateNode.reads, mem_append, mem_symbolicObjects position,
      mem_symbolicObjects value, mem_updatedObjects next, or_and_right, exists_or, and_or_left]

end

theorem mem_findSymbolicObjects {es : List Expr} : array ∈ findSymbolicObjects es ↔
    array.isSymbolicArray = true ∧ ∃ e ∈ es, ∃ re ∈ e.reads, re.root = array := by
  rw [findSymbolicObjects, mem_eraseDups, mem_flatMap]
  simp only [mem_symbolicObjects]
  tauto

end Objects

variable {objects : List Symbolic.Array} {values : Values}

section Binding

def zeroed (a : Bindings) : PartialAssignment := ⟨false, a⟩

def Sized (a : Bindings) : Prop :=
  ∀ (array : Symbolic.Array) (bytes : List (BitVec 8)), a.lookup array = some bytes →
    bytes.length = array.size

theorem lookup_ofValues_from (array : Symbolic.Array) (pairs : List (Symbolic.Array × List (BitVec 8))) (start : Bindings) :
    let result := pairs.foldl (fun bindings (os, arr) =>
      if (bindings.lookup os).isSome then bindings else bindings.insert os arr) start
    (∀ bytes, result.lookup array = some bytes → start.lookup array = some bytes ∨ (array, bytes) ∈ pairs) ∧
    ((start.lookup array).isSome = true ∨ array ∈ pairs.map Prod.fst → (result.lookup array).isSome = true) := by
  induction pairs generalizing start with
  | nil => exact ⟨fun bytes => .inl, fun either => either.resolve_right nofun⟩
  | cons pair rest ih =>
    obtain ⟨os, arr⟩ := pair
    intro result
    have step : ((if (start.lookup os).isSome then start else start.insert os arr).lookup array).isSome
          = true ↔ (start.lookup array).isSome = true ∨ array = os := by
      split
      · rename_i bound
        exact ⟨.inl, fun either => either.elim id fun same => same ▸ bound⟩
      · by_cases same : array = os
        · subst same
          simp
        · rw [Finmap.lookup_insert_of_ne _ same]
          simp [same]
    obtain ⟨sound, complete⟩ := ih (if (start.lookup os).isSome then start else start.insert os arr)
    constructor
    · intro bytes found
      cases sound bytes found with
      | inr later => exact .inr (.tail _ later)
      | inl now =>
        split at now
        · exact .inl now
        · by_cases same : array = os
          · subst same
            rw [Finmap.lookup_insert, Option.some.injEq] at now
            subst now
            exact .inr (.head _)
          · rw [Finmap.lookup_insert_of_ne _ same] at now
            exact .inl now
    · intro either
      apply complete
      simp only [map_cons, mem_cons] at either
      tauto

theorem lookup_ofValues (reads : Reads ρ objects values) (array : Symbolic.Array) :
    (∀ bytes, (Bindings.ofValues objects values).lookup array = some bytes →
      array ∈ objects ∧ bytes.length = array.size ∧
        ∀ i byte, bytes[i]? = some byte → ρ array i = byte.setWidth array.range) ∧
    (array ∈ objects → ((Bindings.ofValues objects values).lookup array).isSome = true) := by
  obtain ⟨sound, complete⟩ := lookup_ofValues_from array (objects.zip values) ∅
  constructor
  · intro bytes found
    have member := (sound bytes found).resolve_left (by simp)
    exact ⟨(of_mem_zip member).1, forall₂_zip reads member⟩
  · intro member
    apply complete
    right
    rw [map_fst_zip (le_of_eq reads.length_eq)]
    exact member

theorem sized_ofValues (reads : Reads ρ objects values) : Sized (Bindings.ofValues objects values) :=
  fun array bytes found => ((lookup_ofValues reads array).1 bytes found).2.1

theorem eval_ofValues (reads : Reads ρ objects values) (padded : Padded ρ)
    (all : ∀ array ∈ symbolicObjects e, array ∈ objects) (w : Nat) :
    e.eval ρ w = e.eval (zeroed (Bindings.ofValues objects values)).toAssignment w := by
  apply Expr.eval_congr
  intro re member
  rw [ReadExpr.Agrees, Array.initial, Array.initial]
  generalize (re.index.eval ρ re.root.domain).toNat = i
  cases inside : re.root.constantValues[i]? with
  | some value => rfl
  | none =>
    have bounds : re.root.isSymbolicArray = true ∨ re.root.size ≤ i := by
      cases re.root.validSize with
      | inl empty => exact .inl (List.isEmpty_iff.mpr empty)
      | inr full => exact .inr (full ▸ List.getElem?_eq_none_iff.mp inside)
    obtain ⟨sound, complete⟩ := lookup_ofValues reads re.root
    cases bound : (Bindings.ofValues objects values).lookup re.root with
    | some bytes =>
      obtain ⟨-, sized, agree⟩ := sound bytes bound
      cases found : bytes[i]? with
      | some byte =>
        have byte? : (zeroed (.ofValues objects values)).byte? re.root i = some byte := by
          rw [PartialAssignment.byte?, zeroed, bound]
          exact found
        rw [(extends_toAssignment _).bound byte?]
        exact agree i byte found
      | none =>
        have missing : (zeroed (.ofValues objects values)).byte? re.root i = none := by
          rw [PartialAssignment.byte?, zeroed, bound]
          exact found
        rw [(extends_toAssignment _).free rfl missing]
        exact padded re.root i (sized ▸ List.getElem?_eq_none_iff.mp found)
    | none =>
      have missing : (zeroed (.ofValues objects values)).byte? re.root i = none := by
        rw [PartialAssignment.byte?, zeroed, bound]
        rfl
      rw [(extends_toAssignment _).free rfl missing]
      apply padded re.root i
      apply bounds.resolve_left
      intro isSymbolic
      have isBound := complete (all re.root ((mem_symbolicObjects e).mpr ⟨isSymbolic, re, member, rfl⟩))
      simp [bound] at isBound

theorem padded_of_sized {a : Bindings} (sized : Sized a) : Padded (zeroed a).toAssignment := by
  intro array i behind
  apply (extends_toAssignment _).free rfl
  rw [PartialAssignment.byte?, zeroed]
  cases bound : a.lookup array with
  | none => rfl
  | some bytes => exact List.getElem?_eq_none_iff.mpr (sized array bytes bound ▸ behind)

theorem reads_valuesOf {a : Bindings} (sized : Sized a) (objects : List Symbolic.Array) :
    Reads (zeroed a).toAssignment objects (CexCachingSolver.valuesOf a objects) := by
  rw [Reads, CexCachingSolver.valuesOf, forall₂_map_right_iff, forall₂_same]
  intro array _
  cases bound : a.lookup array with
  | some bytes =>
    refine ⟨sized array bytes bound, ?_⟩
    intro i byte found
    apply (extends_toAssignment _).bound
    rw [PartialAssignment.byte?, zeroed, bound]
    exact found
  | none =>
    refine ⟨length_replicate, ?_⟩
    intro i byte found
    obtain rfl := eq_of_mem_replicate (mem_of_getElem? found)
    have missing : (zeroed a).byte? array i = none := by
      rw [PartialAssignment.byte?, zeroed, bound]
      rfl
    rw [(extends_toAssignment _).free rfl missing]
    simp

end Binding

section Queries

variable {o : Options} {fuel : Nat} {query : Query} {neg : Expr}

structure QueryEvaluated (o : Options) (query : Query) : Prop where
  constraints : ∀ c ∈ query.constraints, c.Evaluable o ∧ c.width = 1
  expr : query.expr.Evaluable o
  boolean : query.expr.width = 1

def QueryDefined (o : Options) (query : Query) : Prop :=
  ∀ c ∈ query.expr :: query.constraints, c.plain = true ∧
    ∀ ρ, Hold ρ query.constraints → c.WellFormed (.safe o ρ)

theorem negated_eq_one_iff (evaluated : QueryEvaluated o query)
    (negated : createIsZero o fuel query.expr = .ok neg) (ρ : Assignment) : neg.eval ρ 1 = 1#1 ↔ query.expr.eval ρ 1 = 0#1 := by
  rw [(evaluated.expr.negated_eval evaluated.boolean negated ρ).value]
  generalize query.expr.eval ρ 1 = bit
  revert bit
  decide

theorem createIsZero_satisfies (evaluated : QueryEvaluated o query) :
    Satisfies (· = .outOfFuel) (fun neg => createIsZero o fuel query.expr = .ok neg) (createIsZero o fuel query.expr) := by
  apply Satisfies.of_forall
  · exact fun neg returned => returned
  · exact fun fault raised =>
      (createIsZero_condition o fuel (evaluated.expr.wellFormed fun _ _ => 0)).fault raised

end Queries

end NeuroMerge.Solver
