import Mathlib.Data.BitVec
import Mathlib.Data.Set.Card
import NeuroMerge.Execution.ForkOutcome
import NeuroMerge.Execution.SymbolicCall

/-!
# Resolving a symbolic pointer

The loop gives every possible value of the pointer a state of its own, calls the
function on it if there is one at that address, and terminates the state that
executes the call, once, for all values that are no function.
-/

namespace NeuroMerge.Execution

open List Symbolic
open Symbolic.ConstraintManager (Hold)

variable {ρ : Assignment} {o : Options} {fuel : Nat} {options : ForkOptions} {solver : Solver}
  {optimizeExpr : Expr → Expr} {legalFunctions : Nat → Bool} {arguments : List Expr}
  {constraints : List Expr} {executor : Executor} {resolution : Resolution} {free : Nat}
  {state first second : ExecutionState} {v : Expr} {w : Nat} {target : Assignment → BitVec w}
  {values : List (BitVec w)} {value : BitVec w}

/-!
## What the loop keeps
-/

structure Enumerated (legalFunctions : Nat → Bool) (arguments : List Expr)
    (constraints : List Expr) (target : Assignment → BitVec w) (values : List (BitVec w))
    (resolution : Resolution) : Prop where
  parts : ∀ (i : Nat) (value : BitVec w), values[i]? = some value →
    ∃ s : ExecutionState, resolution.states[i]? = some s ∧
      ∀ ρ, Hold ρ s.constraints ↔ Hold ρ constraints ∧ target ρ = value
  distinct : values.Nodup
  possible : ∀ value ∈ values, ∃ ρ, Hold ρ constraints ∧ target ρ = value
  called : ∀ call, call ∈ resolution.called ↔ ∃ value, values[call.state]? = some value ∧
    legalFunctions value.toNat = true ∧ call = ⟨call.state, value.toNat, arguments⟩
  once : (resolution.called.map FunctionCall.state).Nodup
  hasInvalid : resolution.hasInvalid = true ↔ ∃ value ∈ values, legalFunctions value.toNat = false
  terminated : resolution.terminated = if resolution.hasInvalid then [0] else []

structure Unresolved (o : Options) (legalFunctions : Nat → Bool) (arguments : List Expr)
    (constraints : List Expr) (target : Assignment → BitVec w) (values : List (BitVec w))
    (resolution : Resolution) (free : Nat) (state : ExecutionState) : Prop
    extends Enumerated legalFunctions arguments constraints target values resolution where
  length : resolution.states.length = values.length + 1
  last : free = values.length
  sane : Sane o state.constraints
  rest : ∀ ρ, Hold ρ state.constraints ↔ Hold ρ constraints ∧ target ρ ∉ values

theorem getElem?_append_singleton {α : Type} (items : List α) (item found : α) (i : Nat) :
    (items ++ [item])[i]? = some found ↔ items[i]? = some found ∨ i = items.length ∧ found = item := by
  obtain within | rfl | beyond := Nat.lt_trichotomy i items.length
  · simp [getElem?_append_left within, Nat.ne_of_lt within]
  · simp [eq_comm]
  · rw [getElem?_eq_none (by simp; omega), getElem?_eq_none (by omega)]
    simp
    omega

theorem Enumerated.resolveTo {states : List ExecutionState} {s : ExecutionState}
    (enumerated : Enumerated legalFunctions arguments constraints target values resolution)
    (addressable : w ≤ 64) (kept : ∀ i < values.length, states[i]? = resolution.states[i]?)
    (added : states[values.length]? = some s) (part : ∀ ρ, Hold ρ s.constraints ↔ Hold ρ constraints ∧ target ρ = value)
    (new : value ∉ values) (possible : ∃ ρ, Hold ρ constraints ∧ target ρ = value) :
    ∃ resolution', Executor.resolveTo legalFunctions arguments { resolution with states }
        values.length ⟨w, value⟩ = .ok resolution' ∧ resolution'.states = states ∧
      Enumerated legalFunctions arguments constraints target (values ++ [value]) resolution' := by
  have parts (i : Nat) (value' : BitVec w) (found : (values ++ [value])[i]? = some value') :
      ∃ s : ExecutionState, states[i]? = some s ∧ ∀ ρ, Hold ρ s.constraints ↔ Hold ρ constraints ∧ target ρ = value' := by
    obtain old | ⟨rfl, rfl⟩ := (getElem?_append_singleton _ _ _ _).mp found
    · rw [kept i (List.getElem?_eq_some_iff.mp old).1]
      exact enumerated.parts i value' old
    · exact ⟨s, added, part⟩
  have distinct : (values ++ [value]).Nodup := by
    rw [nodup_append]
    refine ⟨enumerated.distinct, nodup_singleton value, ?_⟩
    intro old isOld other isOther
    rw [List.mem_singleton.mp isOther]
    exact ne_of_mem_of_not_mem isOld new
  have possible (value' : BitVec w) (member : value' ∈ values ++ [value]) : ∃ ρ, Hold ρ constraints ∧ target ρ = value' := by
    obtain old | isNew := List.mem_append.mp member
    · exact enumerated.possible value' old
    · rw [List.mem_singleton.mp isNew]
      exact possible
  have illegal : (∃ value' ∈ values ++ [value], legalFunctions value'.toNat = false) ↔
      (∃ value' ∈ values, legalFunctions value'.toNat = false) ∨ legalFunctions value.toNat = false := by
    simp only [mem_append, mem_singleton, or_and_right, exists_or, exists_eq_left]
  have sameCalls (isIllegal : legalFunctions value.toNat = false) (call : FunctionCall) :
      call ∈ resolution.called ↔ ∃ value', (values ++ [value])[call.state]? = some value' ∧
        legalFunctions value'.toNat = true ∧ call = ⟨call.state, value'.toNat, arguments⟩ := by
    rw [enumerated.called]
    apply exists_congr
    intro value'
    rw [getElem?_append_singleton, or_and_right]
    refine (or_iff_left ?_).symm
    rintro ⟨⟨-, rfl⟩, legal, -⟩
    rw [isIllegal] at legal
    contradiction
  rw [Executor.resolveTo, require, if_pos addressable, pure_bind]
  dsimp only
  split
  · rename_i legal
    have fresh : values.length ∉ resolution.called.map FunctionCall.state := by
      intro member
      obtain ⟨call, isCall, sameState⟩ := mem_map.mp member
      obtain ⟨value', found, -⟩ := (enumerated.called call).mp isCall
      rw [sameState, getElem?_eq_none (Nat.le_refl _)] at found
      contradiction
    refine ⟨_, rfl, rfl, parts, distinct, possible, ?_, ?_, ?_, enumerated.terminated⟩
    · intro call
      simp only [mem_append, mem_singleton, enumerated.called, getElem?_append_singleton, or_and_right, exists_or]
      refine or_congr_right ⟨?_, ?_⟩
      · rintro rfl
        exact ⟨value, ⟨rfl, rfl⟩, legal, rfl⟩
      · rintro ⟨value', ⟨state, rfl⟩, -, same⟩
        rw [same, state]
    · rw [map_append, nodup_append]
      refine ⟨enumerated.once, nodup_singleton _, ?_⟩
      intro old isOld other isOther
      rw [List.mem_singleton.mp isOther]
      exact ne_of_mem_of_not_mem isOld fresh
    · rw [illegal, ← enumerated.hasInvalid, legal]
      simp
  · rename_i isIllegal
    rw [Bool.not_eq_true] at isIllegal
    split
    · rename_i hasInvalid
      exact ⟨_, rfl, rfl, parts, distinct, possible, sameCalls isIllegal, enumerated.once,
        by simpa [illegal, isIllegal] using hasInvalid, enumerated.terminated⟩
    · rename_i noneYet
      refine ⟨_, rfl, rfl, parts, distinct, possible, sameCalls isIllegal, enumerated.once, ?_, ?_⟩
      · simp [isIllegal]
      · simp [enumerated.terminated, noneYet]

/-!
## One value
-/

def possibleValues (constraints : List Expr) (target : Assignment → BitVec w) :
    Set (BitVec w) :=
  { value | ∃ ρ, Hold ρ constraints ∧ target ρ = value }

theorem possibleValues_finite (constraints : List Expr) (target : Assignment → BitVec w) : (possibleValues constraints target).Finite :=
  have : Finite (BitVec w) := Finite.of_equiv _ BitVec.equivFin.symm.toEquiv
  Set.toFinite _

def Missing (ρ : Assignment) (states : List ExecutionState) : Prop :=
  ∀ s ∈ states, ¬ Hold ρ s.constraints

/-- Some inputs are in no state that has entered a function or been terminated. -/
def Lost (constraints : List Expr) (resolution : Resolution) : Prop :=
  ∃ ρ, Hold ρ constraints ∧ ∀ (p : Nat) (s : ExecutionState), resolution.states[p]? = some s →
    Hold ρ s.constraints → p ∉ resolution.terminated ∧ ∀ call ∈ resolution.called, call.state ≠ p

theorem Missing.lost (hold : Hold ρ constraints) (missing : Missing ρ resolution.states) : Lost constraints resolution :=
  ⟨ρ, hold, fun _ s found holds => absurd holds (missing s (mem_of_getElem? found))⟩

/-- The pointer has another value, but the fork cannot have two sides. -/
structure Hindered (options : ForkOptions) (target : Assignment → BitVec w) (value : BitVec w)
    (executor : Executor) (state : ExecutionState) : Prop where
  another : ∃ ρ, Hold ρ state.constraints ∧ target ρ ≠ value
  notAffords : ¬ Affords options executor state 1

section

variable (unresolved : Unresolved o legalFunctions arguments constraints target values resolution free state)
include unresolved

theorem Unresolved.mem_set {s s' : ExecutionState} (member : s ∈ resolution.states.set free s') :
    s = s' ∨ ∃ value ∈ values, ∀ ρ, Hold ρ s.constraints ↔ Hold ρ constraints ∧ target ρ = value := by
  obtain ⟨p, found⟩ := mem_iff_getElem?.mp member
  have within : p < (resolution.states.set free s').length := (List.getElem?_eq_some_iff.mp found).1
  rw [length_set, unresolved.length] at within
  rw [unresolved.last] at found
  obtain earlier | isLast := Nat.lt_or_eq_of_le (Nat.le_of_lt_succ within)
  · rw [getElem?_set_ne (Nat.ne_of_gt earlier)] at found
    obtain ⟨s₀, found₀, part⟩ := unresolved.parts p _ (getElem?_eq_getElem earlier)
    rw [found] at found₀
    cases found₀
    exact .inr ⟨_, getElem_mem earlier, part⟩
  · rw [isLast, getElem?_set_self (by rw [unresolved.length]; omega)] at found
    cases found
    exact .inl rfl

theorem Unresolved.missing {s' : ExecutionState} (hold : Hold ρ state.constraints)
    (left : ¬ Hold ρ s'.constraints) : Missing ρ (resolution.states.set free s') := by
  intro s member
  obtain rfl | ⟨value, isValue, part⟩ := unresolved.mem_set member
  · exact left
  · intro holds
    rw [← ((part ρ).mp holds).2] at isValue
    exact ((unresolved.rest ρ).mp hold).2 isValue

end

theorem bit_eq_one (ρ : Assignment) : BitVec.ofBool (target ρ == value) = 1#1 ↔ target ρ = value := by
  rw [BitVector.ofBool_eq_one, beq_iff_eq]

theorem bit_eq_zero (ρ : Assignment) : BitVec.ofBool (target ρ == value) = 0#1 ↔ target ρ ≠ value := by
  rw [← BitVector.ne_one_iff_eq_zero, Ne, bit_eq_one]

theorem Limited.hindered
    (limited : Limited options executor state fun ρ => BitVec.ofBool (target ρ == value)) :
    Hindered options target value executor state := by
  obtain ⟨⟨ρ, hold, isFalse⟩, notAffords⟩ := limited
  exact ⟨⟨ρ, hold, (bit_eq_zero ρ).mp isFalse⟩, notAffords⟩

theorem Unresolved.resolveTo {states : List ExecutionState}
    (unresolved : Unresolved o legalFunctions arguments constraints target values resolution free
      state) (addressable : w ≤ 64) (possible : ∃ ρ, Hold ρ state.constraints ∧ target ρ = value)
    (kept : ∀ i < values.length, states[i]? = resolution.states[i]?) (added : states[values.length]? = some first)
    (part : ∀ ρ, Hold ρ first.constraints ↔ Hold ρ state.constraints ∧ target ρ = value) :
    ∃ resolution', Executor.resolveTo legalFunctions arguments { resolution with states }
        free ⟨w, value⟩ = .ok resolution' ∧ resolution'.states = states ∧
      Enumerated legalFunctions arguments constraints target (values ++ [value]) resolution' := by
  obtain ⟨ρ₀, hold₀, rfl⟩ := possible
  have rest₀ := (unresolved.rest ρ₀).mp hold₀
  have part' (ρ : Assignment) : Hold ρ first.constraints ↔ Hold ρ constraints ∧ target ρ = target ρ₀ := by
    rw [part, unresolved.rest, and_assoc]
    refine and_congr_right fun _ => and_iff_right_of_imp fun same => ?_
    rw [same]
    exact rest₀.2
  rw [unresolved.last]
  exact unresolved.toEnumerated.resolveTo addressable kept added part' rest₀.2 ⟨ρ₀, rest₀.1, rfl⟩

def Optimizes (o : Options) (optimizeExpr : Expr → Expr) : Prop :=
  ∀ (ρ : Assignment) (e : Expr) (w : Nat) (value : BitVec w),
    Denotes (.safe o ρ) ρ e value → Denotes (.safe o ρ) ρ (optimizeExpr e) value

theorem Optimizes.means (optimizes : Optimizes o optimizeExpr) (means : Means o state.constraints v target)
    (part : ∀ ρ, Hold ρ constraints → Hold ρ state.constraints) : Means o constraints (optimizeExpr v) target :=
  fun ρ hold => optimizes ρ v w (target ρ) (means ρ (part ρ hold))

theorem Missing.set (missing : Missing ρ resolution.states) (left : ¬ Hold ρ first.constraints) :
    Missing ρ (resolution.states.set free first) := by
  intro s member
  obtain old | rfl := mem_or_eq_of_mem_set member
  · exact missing s old
  · exact left

theorem Affords.one {forks : Nat} (affords : Affords options executor state (forks + 1)) : Affords options executor state 1 := by
  refine { affords with maxForks := ?_, maxDepth := ?_ }
  · intro limit member
    have within := affords.maxForks limit member
    omega
  · exact affords.maxDepth.imp_right fun _ => by omega

section

variable (hindered : Hindered options target value executor state) (possible : ∃ ρ, Hold ρ state.constraints ∧ target ρ = value)
include hindered possible

theorem Hindered.more : 1 < (possibleValues state.constraints target).ncard := by
  obtain ⟨ρ, hold, different⟩ := hindered.another
  exact (Set.one_lt_ncard_iff (possibleValues_finite _ _)).mpr ⟨target ρ, value, ⟨ρ, hold, rfl⟩, possible, different⟩

end

def Represents (ρ : Assignment) (resolution : Resolution) (p : Nat) : Prop :=
  ∃ s, resolution.states[p]? = some s ∧ Hold ρ s.constraints

theorem Unresolved.initial (sane : Sane o state.constraints) : Unresolved o legalFunctions
    arguments state.constraints target [] ⟨[state], [], [], false⟩ 0 state where
  parts := nofun
  distinct := nodup_nil
  possible := nofun
  called := by simp
  once := nodup_nil
  hasInvalid := by simp
  terminated := rfl
  length := rfl
  last := rfl
  sane := sane
  rest := by simp

theorem Sane.count (sane : Sane o constraints) : (possibleValues constraints target).ncard =
    (possibleValues constraints target).ncard - 1 + 1 := by
  obtain ⟨ρ, hold⟩ := sane.possible
  have positive : 0 < (possibleValues constraints target).ncard :=
    (Set.ncard_pos (possibleValues_finite _ _)).mpr ⟨target ρ, ρ, hold, rfl⟩
  omega

section Sample

open Symbolic.ConstraintManager (sampleCondition sampleCondition_wellFormed sampleCondition_eval)
open Executor (sampleOptions sampleState sampleExecutor idealSolver idealSolver_sound)

def samplePointer : Expr :=
  .select sampleCondition (.constant ⟨64, 4096⟩) (.constant ⟨64, 8192⟩)

theorem samplePointer_wellFormed {guards : Guards} : samplePointer.WellFormed guards := by
  simp only [samplePointer, Expr.WellFormed, Expr.WellFormed, true_and]
  exact ⟨sampleCondition_wellFormed, rfl, rfl⟩

def byteAssignment (byte : BitVec 8) : Assignment := fun root _ => byte.setWidth root.range

end Sample

section Sample

open Executor (sampleOptions sampleState sampleExecutor)

end Sample

end NeuroMerge.Execution
