import Mathlib.Data.List.Nodup
import NeuroMerge.Symbolic.Expr

/-!
# Names of solver arrays

`getInitialArray` of `STPBuilder` and of `Z3Builder`: both declare an array under
a name that is cut from the name of the KLEE array and ends in the number of
arrays that the builder has declared before. What is declared besides the name
belongs to the translation of expressions. A `Char` stands for a byte.
-/

namespace NeuroMerge.Solver

open List Symbolic

def itostr (value : Nat) : List Char := Nat.toDigits 10 value

/-- What the backend reads of a string: the part before the first NUL. -/
def c_str (text : List Char) : List Char := text.takeWhile (· ≠ '\x00')

def keptName (name : List Char) (uid_length : Nat) : List Char :=
  let space := if name.length > 32 - uid_length then 32 - uid_length else name.length
  name.take space

def unique_name (name : List Char) (count : Nat) : List Char :=
  let unique_id := itostr count
  keptName name unique_id.length ++ unique_id

structure ArrayVariable where
  name : List Char
  domain : Nat
  range : Nat
  deriving DecidableEq

/-- `_arr_hash._array_hash`; arrays are told apart by their addresses. -/
abbrev ArrayHash := List (Array × ArrayVariable)

def lookupArrayExpr (hash : ArrayHash) (root : Array) : Option ArrayVariable :=
  (hash.find? fun entry => entry.1 = root).map (·.2)

def buildArray (name : List Char) (indexWidth valueWidth : Nat) : ArrayVariable :=
  ⟨c_str name, indexWidth, valueWidth⟩

def getInitialArray (hash : ArrayHash) (root : Array) : ArrayVariable × ArrayHash :=
  match lookupArrayExpr hash root with
  | some array_expr => (array_expr, hash)
  | none =>
    let array_expr := buildArray (unique_name root.name.toList hash.length) root.domain root.range
    (array_expr, hash ++ [(root, array_expr)])

/-- The variables of the arrays handed to a builder one after the other. -/
def getInitialArrays (hash : ArrayHash) : List Array → List ArrayVariable
  | [] => []
  | root :: rest =>
    (getInitialArray hash root).1 :: getInitialArrays (getInitialArray hash root).2 rest

def kept (root : Array) (count : Nat) : List Char :=
  keptName root.name.toList (itostr count).length

/-- The number of the later array ends in the number of the earlier one, and what it
has in front of that is what the earlier array's name has more; or a kept part holds a
NUL, so that the number behind it is not seen. -/
def Clash (first : Array) (i : Nat) (second : Array) (j : Nat) : Prop :=
  if '\x00' ∈ kept first i then
    if '\x00' ∈ kept second j then c_str (kept first i) = c_str (kept second j)
    else c_str (kept first i) = kept second j ++ itostr j
  else if '\x00' ∈ kept second j then
    kept first i ++ itostr i = c_str (kept second j)
  else
    ∃ more, more ≠ [] ∧ itostr j = more ++ itostr i ∧ kept first i = kept second j ++ more

variable {i j : Nat}

theorem itostr_injective (same : itostr i = itostr j) : i = j := by
  have read := congrArg (fun digits => Nat.ofDigitChars 10 digits 0) same
  simpa only [itostr, Nat.ofDigitChars_ten_toDigits] using read

theorem itostr_length_mono (less : i ≤ j) : (itostr i).length ≤ (itostr j).length := by
  have bound : j < 10 ^ (itostr j).length := (Nat.length_toDigits_le_iff (by decide) Nat.length_toDigits_pos).mp (Nat.le_refl _)
  exact (Nat.length_toDigits_le_iff (by decide) Nat.length_toDigits_pos).mpr (Nat.lt_of_le_of_lt less bound)

theorem itostr_isDigit {c : Char} (member : c ∈ itostr i) : c.isDigit :=
  Nat.isDigit_of_mem_toDigits (by decide) (by decide) member

theorem nul_notMem_itostr (i : Nat) : '\x00' ∉ itostr i := by
  intro member
  exact absurd (itostr_isDigit member) (by decide)

variable {text : List Char}

theorem c_str_append_of_notMem (plain : '\x00' ∉ text) (rest : List Char) : c_str (text ++ rest) = text ++ c_str rest := by
  refine takeWhile_append_of_pos fun c member => ?_
  simpa using fun nul : c = '\x00' => plain (nul ▸ member)

theorem c_str_of_notMem (plain : '\x00' ∉ text) : c_str text = text := by
  have whole := c_str_append_of_notMem plain []
  simpa [c_str] using whole

theorem c_str_append_of_mem {rest : List Char} (nul : '\x00' ∈ text) : c_str (text ++ rest) = c_str text := by
  induction text with
  | nil => cases nul
  | cons c text ih =>
    by_cases same : c = '\x00'
    · simp [c_str, same]
    · have later : '\x00' ∈ text := by simpa [Ne.symm same] using nul
      simpa [c_str, same] using ih later

def declaredName (root : Array) (count : Nat) : List Char :=
  c_str (unique_name root.name.toList count)

variable {root : Array}

theorem declaredName_of_mem {count : Nat} (nul : '\x00' ∈ kept root count) : declaredName root count = c_str (kept root count) :=
  c_str_append_of_mem nul

theorem declaredName_of_notMem {count : Nat} (plain : '\x00' ∉ kept root count) :
    declaredName root count = kept root count ++ itostr count := by
  refine c_str_of_notMem fun member => ?_
  cases mem_append.mp member with
  | inl inName => exact plain inName
  | inr inNumber => exact nul_notMem_itostr count inNumber

/-- Two names that end in the numbers of their positions are equal exactly when the longer
number ends in the shorter one. -/
theorem append_itostr_eq_iff (before : i < j) (first second : List Char) :
    first ++ itostr i = second ++ itostr j ↔ ∃ more, more ≠ [] ∧ itostr j = more ++ itostr i ∧ first = second ++ more := by
  constructor
  · intro same
    have lengths := itostr_length_mono (Nat.le_of_lt before)
    cases append_eq_append_iff.mp same with
    | inl longer =>
      obtain ⟨more, rfl, number⟩ := longer
      have nothing : more = [] := by
        have sizes := congrArg List.length number
        rw [length_append] at sizes
        exact eq_nil_of_length_eq_zero (by omega)
      subst nothing
      exact absurd (itostr_injective number) (Nat.ne_of_lt before)
    | inr shorter =>
      obtain ⟨more, rfl, number⟩ := shorter
      refine ⟨more, fun nothing => ?_, number, rfl⟩
      subst nothing
      exact (Nat.ne_of_lt before) (itostr_injective number.symm)
  · rintro ⟨more, _, number, rfl⟩
    rw [number, append_assoc]

theorem clash_iff {first second : Array} (before : i < j) : Clash first i second j ↔ declaredName first i = declaredName second j := by
  unfold Clash
  split
  · rename_i firstCut
    rw [declaredName_of_mem firstCut]
    split
    · rename_i secondCut
      rw [declaredName_of_mem secondCut]
    · rename_i secondPlain
      rw [declaredName_of_notMem secondPlain]
  · rename_i firstPlain
    rw [declaredName_of_notMem firstPlain]
    split
    · rename_i secondCut
      rw [declaredName_of_mem secondCut]
    · rename_i secondPlain
      rw [declaredName_of_notMem secondPlain]
      exact (append_itostr_eq_iff before _ _).symm

def ArrayHash.arrays (hash : ArrayHash) : List Array := hash.map (·.1)

theorem lookupArrayExpr_eq_none {hash : ArrayHash} : lookupArrayExpr hash root = none ↔ root ∉ hash.arrays := by
  simp only [lookupArrayExpr, Option.map_eq_none_iff, find?_eq_none, ArrayHash.arrays, mem_map, decide_eq_true_eq, not_exists, not_and]

theorem getInitialArray_fresh {hash : ArrayHash} (fresh : root ∉ hash.arrays) :
    getInitialArray hash root =
      (⟨declaredName root hash.length, root.domain, root.range⟩,
        hash ++ [(root, ⟨declaredName root hash.length, root.domain, root.range⟩)]) := by
  rw [getInitialArray, lookupArrayExpr_eq_none.mpr fresh]
  rfl

theorem getInitialArrays_names {arrays : List Array} (hash : ArrayHash) (distinct : (hash.arrays ++ arrays).Nodup) :
    (getInitialArrays hash arrays).map (·.name) = (arrays.zipIdx hash.length).map fun entry => declaredName entry.1 entry.2 := by
  induction arrays generalizing hash with
  | nil => rfl
  | cons root rest ih =>
    have fresh : root ∉ hash.arrays := by
      intro known
      exact (nodup_append.mp distinct).2.2 root known root (by simp) rfl
    rw [getInitialArrays, getInitialArray_fresh fresh]
    have distinctRest := ih (hash ++ [(root, ⟨declaredName root hash.length, root.domain, root.range⟩)])
      (by simpa [ArrayHash.arrays] using distinct)
    simp only [map_cons, distinctRest, zipIdx_cons, length_append, length_cons, length_nil]

/-- The names under which a builder declares distinct arrays are pairwise different
exactly when no two of the arrays clash. -/
theorem unique_names_iff (arrays : List Array) (distinct : arrays.Nodup) :
    ((getInitialArrays [] arrays).map (·.name)).Nodup ↔
      ∀ i j first second, i < j → arrays[i]? = some first → arrays[j]? = some second →
        ¬ Clash first i second j := by
  rw [getInitialArrays_names [] (by simpa [ArrayHash.arrays] using distinct),
    List.Nodup, pairwise_iff_getElem]
  constructor
  · intro different i j first second before atFirst atSecond clash
    obtain ⟨firstBound, rfl⟩ := List.getElem?_eq_some_iff.mp atFirst
    obtain ⟨secondBound, rfl⟩ := List.getElem?_eq_some_iff.mp atSecond
    have apart := different i j (by simpa using firstBound) (by simpa using secondBound) before
    simp only [getElem_map, getElem_zipIdx, length_nil, Nat.zero_add] at apart
    exact apart ((clash_iff before).mp clash)
  · intro clashFree i j firstBound secondBound before
    simp only [length_map, length_zipIdx] at firstBound secondBound
    have apart := clashFree i j _ _ before (getElem?_eq_getElem firstBound)
      (getElem?_eq_getElem secondBound)
    simp only [getElem_map, getElem_zipIdx, length_nil, Nat.zero_add]
    exact fun same => apart ((clash_iff before).mpr same)

def byteArray (id : Nat) (name : String) : Array := .symbolic id name 1

theorem unique_names_iff_pair :
    ((getInitialArrays [] [byteArray 0 "a", byteArray 1 "b"]).map (·.name)).Nodup ↔
      ∀ i j first second, i < j → [byteArray 0 "a", byteArray 1 "b"][i]? = some first →
        [byteArray 0 "a", byteArray 1 "b"][j]? = some second → ¬ Clash first i second j :=
  unique_names_iff [byteArray 0 "a", byteArray 1 "b"] (by decide)

def clashingArrays : List Array :=
  byteArray 0 "a1" :: (List.range 9).map (fun i => byteArray (i + 1) "x") ++ [byteArray 10 "a"]

theorem unique_names_clash :
    clashingArrays.Nodup ∧ ¬ ((getInitialArrays [] clashingArrays).map (·.name)).Nodup := by
  refine ⟨by decide, fun different => ?_⟩
  have apart := (List.pairwise_iff_getElem.mp different) 0 10 (by decide) (by decide) (by decide)
  exact apart (by decide)

end NeuroMerge.Solver
