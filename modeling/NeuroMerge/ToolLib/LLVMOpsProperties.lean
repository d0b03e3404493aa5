import Mathlib.Data.List.Pairwise
import NeuroMerge.Foundations.Fuel
import NeuroMerge.ToolLib.LLVMOps

/-!
# Looking names up again

The separator is not escaped, so an identifier is read back as the function, block or
instruction that it was made of where neither path nor name contains one.
-/

namespace NeuroMerge.ToolLib

open List

/-! ## Parts of a string -/

section Parts

variable {str text : List Char} {start : Option Nat} {segment : List Char} {segments : List (List Char)}

theorem exists_first (member : '-' ∈ text) : ∃ front rest, text = front ++ '-' :: rest ∧ '-' ∉ front :=
  eq_append_cons_of_mem member

theorem not_mem_segment (member : segment ∈ text.splitOn '-') : '-' ∉ segment := by
  induction text generalizing segment with
  | nil =>
    obtain rfl : segment = [] := by simpa using member
    exact not_mem_nil
  | cons c text ih =>
    rw [splitOn_cons_eq_if_modifyHead] at member
    split at member
    · rcases List.mem_cons.mp member with rfl | later
      · exact not_mem_nil
      · exact ih later
    · rename_i other
      cases parts : text.splitOn '-' with
      | nil => exact absurd parts (splitOn_ne_nil _ _)
      | cons first rest =>
        rw [parts] at member ih
        rcases List.mem_cons.mp member with rfl | later
        · intro inside
          rcases List.mem_cons.mp inside with same | deeper
          · exact other (by simp [← same])
          · exact ih mem_cons_self deeper
        · exact ih (mem_cons_of_mem _ later)

theorem find_of_append {front rest : List Char} (free : '-' ∉ front) {pos : Nat}
    (behind : str.drop pos = front ++ '-' :: rest) : find str pos = some (pos + front.length) := by
  have index : (front ++ '-' :: rest).findIdx? (· = '-') = some front.length := by
    rw [findIdx?_append, findIdx?_eq_none_iff.mpr (fun c inside => ?_)]
    · simp [findIdx?_cons]
    · exact decide_eq_false fun same : c = '-' => free (same ▸ inside)
  rw [find, behind, index]
  rfl

theorem find_of_not_mem {pos : Nat} (free : '-' ∉ str.drop pos) : find str pos = none := by
  rw [find, findIdx?_eq_none_iff.mpr (fun c inside => ?_)]
  · rfl
  · exact decide_eq_false fun same : c = '-' => free (same ▸ inside)

theorem part_spec (split : (str.drop (next start)).splitOn '-' = segment :: segments) :
    part str start = segment ∧ (segments ≠ [] → ∃ last, find str (next start) = some last ∧
      (str.drop (next (some last))).splitOn '-' = segments) := by
  by_cases member : '-' ∈ str.drop (next start)
  · obtain ⟨front, rest, behind, free⟩ := exists_first member
    rw [behind, splitOn_append_cons_self_of_not_mem free] at split
    obtain ⟨rfl, rfl⟩ := List.cons.inj split
    have found := find_of_append free behind
    constructor
    · rw [part, found]
      simp [behind]
    · intro _
      refine ⟨_, found, ?_⟩
      have further : str.drop (next (some (next start + front.length))) = rest := by
        rw [show next (some (next start + front.length)) = next start + (front.length + 1) from
          Nat.add_assoc .., ← drop_drop, behind]
        simp
      rw [further]
  · rw [splitOn_eq_singleton member] at split
    obtain ⟨rfl, rfl⟩ := List.cons.inj split
    refine ⟨?_, fun notEmpty => absurd rfl notEmpty⟩
    rw [part, find_of_not_mem member]

theorem find_lt {pos last : Nat} (found : find str pos = some last) : last < str.length := by
  rw [find, Option.map_eq_some_iff] at found
  obtain ⟨i, index, rfl⟩ := found
  have bound := (findIdx?_eq_some_iff_findIdx_eq.mp index).1
  rw [length_drop] at bound
  omega

theorem find_ne_length (pos : Nat) : find str pos ≠ some str.length :=
  fun found => absurd (find_lt found) (Nat.lt_irrefl _)

end Parts

/-! ## What a string is read as -/

section Reading

variable {m : Module} {f : Function} {b : BasicBlock} {inst : Nat} {str : List Char}
  {path name no noInst : List Char} {more : List (List Char)}

theorem first_separator (split : str.splitOn '-' = path :: name :: more) :
    ∃ first, find str 0 = some first ∧ (str.drop (next (some first))).splitOn '-' = name :: more :=
  (@part_spec str none _ _ split).2 (cons_ne_nil _ _)

theorem strID_to_function_eq (split : str.splitOn '-' = path :: name :: more) : strID_to_function m str = m.getFunction name := by
  obtain ⟨first, found, behind⟩ := first_separator split
  rw [strID_to_function, if_neg (find_ne_length 0), found, (part_spec behind).1]

theorem named_apart (m : Module) {f g : Function} (one : f ∈ m.functions) (other : g ∈ m.functions)
    (different : f ≠ g) (same : f.name = g.name) : f.name = [] := by
  have symmetric : Std.Symm fun f g : Function => f.name = g.name → f.name = [] := ⟨fun _ _ unnamed same => same ▸ unnamed same.symm⟩
  exact m.symbols.forall one other different same

theorem getFunction_eq_some_iff (member : f ∈ m.functions) : m.getFunction name = some f ↔ name = f.name ∧ f.name ≠ [] := by
  rw [Module.getFunction]
  split
  · rename_i unnamed
    subst unnamed
    simp [eq_comm]
  · rename_i named
    constructor
    · intro found
      have same : f.name = name := by simpa using find?_some found
      exact ⟨same.symm, same ▸ named⟩
    · rintro ⟨rfl, -⟩
      cases found : m.functions.find? fun g => g.name = f.name with
      | none => simpa using find?_eq_none.mp found f member
      | some g =>
        have same : g.name = f.name := by simpa using find?_some found
        by_contra different
        have apart : g ≠ f := fun equal => different (equal ▸ rfl)
        have unnamed := named_apart m (mem_of_find?_eq_some found) member apart same
        exact named (same ▸ unnamed)

theorem countDown_eq_some_iff {α : Type} [DecidableEq α] {items : List α} (distinct : items.Nodup)
    {item : α} (member : item ∈ items) {n : Int} : countDown items n = some item ↔ n = items.idxOf item := by
  have bound := idxOf_lt_length_of_mem member
  rw [countDown]
  split
  · rename_i negative
    simp only [reduceCtorEq, false_iff]
    omega
  · rename_i notNegative
    constructor
    · intro found
      obtain ⟨inside, here⟩ := List.getElem?_eq_some_iff.mp found
      have index : items.idxOf item = n.toNat := by
        rw [← here]
        exact distinct.idxOf_getElem _ inside
      omega
    · rintro rfl
      rw [Int.toNat_natCast, getElem?_eq_getElem bound, getElem_idxOf]

theorem strID_to_basicblock_eq_iff (split : str.splitOn '-' = path :: name :: no :: more)
    (function : m.getFunction name = some f) (member : b ∈ f.blocks) :
    strID_to_basicblock m str = .ok (some b) ↔ stoi no = .ok (f.blocks.idxOf b : Int) := by
  obtain ⟨first, found, behind⟩ := first_separator split
  obtain ⟨second, found', behind'⟩ := (part_spec behind).2 (cons_ne_nil _ _)
  rw [strID_to_basicblock, strID_to_function_eq split, function]
  simp only [found, found']
  rw [if_neg (found' ▸ find_ne_length _), (part_spec behind').1]
  cases read : stoi no with
  | error fault => simp [bind, Except.bind]
  | ok n =>
    simp only [bind, Except.bind, pure, Except.pure, Except.ok.injEq]
    exact countDown_eq_some_iff f.distinct member

theorem strID_to_inst_eq_iff (split : str.splitOn '-' = path :: name :: no :: noInst :: more)
    (block : strID_to_basicblock m str = .ok (some b)) (member : inst ∈ b.instructions) :
    strID_to_inst m str = .ok (some inst) ↔ stoi noInst = .ok (b.instructions.idxOf inst : Int) := by
  obtain ⟨first, found, behind⟩ := first_separator split
  obtain ⟨second, found', behind'⟩ := (part_spec behind).2 (cons_ne_nil _ _)
  obtain ⟨third, found'', behind''⟩ := (part_spec behind').2 (cons_ne_nil _ _)
  rw [strID_to_inst, block]
  simp only [bind, Except.bind, found, found', found'']
  rw [if_neg (found'' ▸ find_ne_length _), (part_spec behind'').1]
  cases read : stoi noInst with
  | error fault => simp
  | ok n =>
    have index := countDown_eq_some_iff b.distinct member (n := n)
    cases counted : countDown b.instructions n with
    | none =>
      simpa [counted, throw, throwThe, MonadExceptOf.throw] using index
    | some other =>
      simpa [counted, pure, Except.pure] using index

end Reading

/-! ## Numbers -/

section Numbers

variable {α : Type} [DecidableEq α] {items : List α} {read : Except Fault Int}

theorem isSpace_of_isDigit {c : Char} (digit : c.isDigit = true) : isSpace c = false := by
  refine decide_eq_false fun space => ?_
  simp only [mem_cons, not_mem_nil, or_false] at space
  rcases space with rfl | rfl | rfl | rfl | rfl | rfl <;> exact absurd digit (by decide)

theorem stoi_toDigits (n : Nat) : stoi (Nat.toDigits 10 n) = if n < 2 ^ 31 then .ok (n : Int) else .error .outOfRange := by
  have digit : ∀ c ∈ Nat.toDigits 10 n, c.isDigit = true := fun c inside =>
    Nat.isDigit_of_mem_toDigits (by decide) (by decide) inside
  have noSpace : (Nat.toDigits 10 n).dropWhile isSpace = Nat.toDigits 10 n := by
    cases digits : Nat.toDigits 10 n with
    | nil => rfl
    | cons c rest =>
      have first := digit c (digits ▸ mem_cons_self)
      rw [dropWhile_cons_of_neg (by simp [isSpace_of_isDigit first])]
  have unsigned : sign (Nat.toDigits 10 n) = (false, Nat.toDigits 10 n) := by
    unfold sign
    split
    · rename_i digits
      exact absurd (digit '-' (digits ▸ mem_cons_self)) (by decide)
    · rename_i digits
      exact absurd (digit '+' (digits ▸ mem_cons_self)) (by decide)
    · rfl
  have all : (Nat.toDigits 10 n).takeWhile Char.isDigit = Nat.toDigits 10 n := by
    have whole := @takeWhile_append_of_pos _ Char.isDigit _ [] digit
    simpa using whole
  rw [stoi]
  simp only [noSpace, unsigned, all, Nat.toDigits_ne_nil, if_false, Bool.false_eq_true, Nat.ofDigitChars_ten_toDigits]
  by_cases small : n < 2 ^ 31
  · rw [if_pos small, if_neg (by omega)]
    rfl
  · rw [if_neg small, if_pos (by omega)]
    rfl

theorem stoi_toDigits_iff {n : Nat} : stoi (Nat.toDigits 10 n) = .ok (n : Int) ↔ n < 2 ^ 31 := by
  rw [stoi_toDigits]
  split <;> simp_all

theorem numbers_iff (distinct : items.Nodup) :
    (∀ item ∈ items, stoi (Nat.toDigits 10 (items.idxOf item)) = .ok (items.idxOf item : Int)) ↔ items.length ≤ 2 ^ 31 := by
  simp only [stoi_toDigits_iff]
  constructor
  · intro small
    by_contra long
    have inside : 2 ^ 31 < items.length := by omega
    have last := small _ (getElem_mem inside)
    rw [distinct.idxOf_getElem _ inside] at last
    exact Nat.lt_irrefl _ last
  · intro short item member
    exact Nat.lt_of_lt_of_le (idxOf_lt_length_of_mem member) short

theorem one_number_iff (distinct : items.Nodup) :
    (∀ item ∈ items, read = .ok (items.idxOf item : Int)) ↔ items = [] ∨ ∃ item, items = [item] ∧ read = .ok 0 := by
  cases items with
  | nil => simp
  | cons first rest =>
    cases rest with
    | nil => simp
    | cons second rest =>
      have different : first ≠ second := fun same => by simp [same] at distinct
      simp only [mem_cons, reduceCtorEq, List.cons.injEq, false_and, and_false, exists_false, or_false, iff_false]
      intro all
      have zero := all first (.inl rfl)
      have one := all second (.inr (.inl rfl))
      rw [zero] at one
      simp [different] at one

end Numbers

/-! ## Strings and what they stand for -/

structure RoundTrips (m : Module) (f : Function) : Prop where
  function : strID_to_function m (function_to_strID f) = some f
  blocks : ∀ b ∈ f.blocks, strID_to_basicblock m (basicblock_to_strID f b) = .ok (some b)
  instructions : ∀ b ∈ f.blocks, ∀ inst ∈ b.instructions,
    strID_to_inst m (inst_to_strID f b inst) = .ok (some inst)

structure Invertible (m : Module) : Prop where
  roundTrips : ∀ f ∈ m.functions, RoundTrips m f
  functions : ∀ f ∈ m.functions, ∀ g ∈ m.functions,
    function_to_strID f = function_to_strID g → f = g
  blocks : ∀ f ∈ m.functions, ∀ b ∈ f.blocks, ∀ g ∈ m.functions, ∀ c ∈ g.blocks,
    basicblock_to_strID f b = basicblock_to_strID g c → b = c
  instructions : ∀ f ∈ m.functions, ∀ b ∈ f.blocks, ∀ i ∈ b.instructions,
    ∀ g ∈ m.functions, ∀ c ∈ g.blocks, ∀ j ∈ c.instructions,
      inst_to_strID f b i = inst_to_strID g c j → i = j

theorem invertible_iff {m : Module} : Invertible m ↔ ∀ f ∈ m.functions, RoundTrips m f := by
  constructor
  · exact Invertible.roundTrips
  · intro back
    constructor
    · exact back
    · intro f hf g hg same
      have found := (back f hf).function
      rw [same, (back g hg).function] at found
      exact (Option.some.inj found).symm
    · intro f hf b hb g hg c hc same
      have found := (back f hf).blocks b hb
      rw [same, (back g hg).blocks c hc] at found
      exact (Option.some.inj (Except.ok.inj found)).symm
    · intro f hf b hb i hi g hg c hc j hj same
      have found := (back f hf).instructions b hb i hi
      rw [same, (back g hg).instructions c hc j hj] at found
      exact (Option.some.inj (Except.ok.inj found)).symm

/-! ## When they are read back -/

section Condition

variable {m : Module} {f : Function} {b : BasicBlock} {inst : Nat} {path name no noInst : List Char} {more : List (List Char)}

/-- The identifier of the first block of a function with a separator in its path still has the
name of the function as its second part and numbers of the block and of its instruction as the
third and the fourth. These are the same for all of them, so there is only one. -/
def Spells (f : Function) : Prop :=
  ∃ path no noInst more,
    (function_to_strID f ++ ['-', '0']).splitOn '-' = path :: f.name :: no :: noInst :: more ∧
    (f.blocks = [] ∨ ∃ b, f.blocks = [b] ∧ stoi no = .ok 0 ∧
      (b.instructions = [] ∨ ∃ inst, b.instructions = [inst] ∧ stoi noInst = .ok 0))

structure Separable (f : Function) : Prop where
  named : f.name ≠ []
  name : '-' ∉ f.name
  path : '-' ∉ f.path ∨ Spells f
  blocks : f.blocks.length ≤ 2 ^ 31
  instructions : ∀ b ∈ f.blocks, b.instructions.length ≤ 2 ^ 31

theorem not_mem_toDigits (n : Nat) : '-' ∉ Nat.toDigits 10 n := fun inside =>
  absurd (Nat.isDigit_of_mem_toDigits (by decide) (by decide) inside) (by decide)

theorem function_splitOn : (function_to_strID f).splitOn '-' = f.path.splitOn '-' ++ f.name.splitOn '-' :=
  splitOn_append_cons_self _ _

theorem basicblock_splitOn : (basicblock_to_strID f b).splitOn '-' =
    (function_to_strID f).splitOn '-' ++ [Nat.toDigits 10 (f.blocks.idxOf b)] := by
  rw [basicblock_to_strID, splitOn_append_cons_self, splitOn_eq_singleton (not_mem_toDigits _)]

theorem inst_splitOn : (inst_to_strID f b inst).splitOn '-' =
    (function_to_strID f).splitOn '-' ++ [Nat.toDigits 10 (f.blocks.idxOf b), Nat.toDigits 10 (b.instructions.idxOf inst)] := by
  rw [inst_to_strID, splitOn_append_cons_self, splitOn_eq_singleton (not_mem_toDigits _), basicblock_splitOn, append_assoc]
  rfl

theorem exists_parts (f : Function) : ∃ path name more, (function_to_strID f).splitOn '-' = path :: name :: more := by
  rw [function_splitOn]
  cases path : f.path.splitOn '-' with
  | nil => exact absurd path (splitOn_ne_nil _ _)
  | cons first rest =>
    cases rest with
    | cons second rest => exact ⟨_, _, _, rfl⟩
    | nil =>
      cases name : f.name.splitOn '-' with
      | nil => exact absurd name (splitOn_ne_nil _ _)
      | cons second rest => exact ⟨_, _, _, rfl⟩

theorem function_roundTrips_iff (member : f ∈ m.functions) (split : (function_to_strID f).splitOn '-' = path :: name :: more) :
    strID_to_function m (function_to_strID f) = some f ↔ name = f.name ∧ f.name ≠ [] := by
  rw [strID_to_function_eq split, getFunction_eq_some_iff member]

/-- Without a separator in the path each number is read where it was written. -/
theorem roundTrips_of_clear (member : f ∈ m.functions) (named : f.name ≠ []) (clear : '-' ∉ f.name) (free : '-' ∉ f.path) :
    RoundTrips m f ↔ f.blocks.length ≤ 2 ^ 31 ∧ ∀ b ∈ f.blocks, b.instructions.length ≤ 2 ^ 31 := by
  have split : (function_to_strID f).splitOn '-' = [f.path, f.name] := by
    rw [function_splitOn, splitOn_eq_singleton free, splitOn_eq_singleton clear]
    rfl
  have found := (getFunction_eq_some_iff member).mpr ⟨rfl, named⟩
  have block : ∀ b ∈ f.blocks, (strID_to_basicblock m (basicblock_to_strID f b) = .ok (some b) ↔
        stoi (Nat.toDigits 10 (f.blocks.idxOf b)) = .ok (f.blocks.idxOf b : Int)) := by
    intro b inside
    exact strID_to_basicblock_eq_iff (by rw [basicblock_splitOn, split]; rfl) found inside
  have instruction : ∀ b ∈ f.blocks, stoi (Nat.toDigits 10 (f.blocks.idxOf b)) = .ok (f.blocks.idxOf b : Int) →
      ∀ inst ∈ b.instructions, (strID_to_inst m (inst_to_strID f b inst) = .ok (some inst) ↔
          stoi (Nat.toDigits 10 (b.instructions.idxOf inst)) = .ok (b.instructions.idxOf inst : Int)) := by
    intro b inside read inst within
    have parts : (inst_to_strID f b inst).splitOn '-' = [f.path, f.name,
        Nat.toDigits 10 (f.blocks.idxOf b), Nat.toDigits 10 (b.instructions.idxOf inst)] := by
      rw [inst_splitOn, split]
      rfl
    exact strID_to_inst_eq_iff parts ((strID_to_basicblock_eq_iff parts found inside).mpr read) within
  constructor
  · intro back
    have blocks := fun b inside => (block b inside).mp (back.blocks b inside)
    refine ⟨(numbers_iff f.distinct).mp blocks, fun b inside => ?_⟩
    exact (numbers_iff b.distinct).mp fun inst within =>
      (instruction b inside (blocks b inside) inst within).mp (back.instructions b inside inst within)
  · rintro ⟨few, short⟩
    have blocks := (numbers_iff f.distinct).mpr few
    constructor
    · exact (function_roundTrips_iff member split).mpr ⟨rfl, named⟩
    · exact fun b inside => (block b inside).mpr (blocks b inside)
    · intro b inside inst within
      exact (instruction b inside (blocks b inside) inst within).mpr ((numbers_iff b.distinct).mpr (short b inside) inst within)

/-- A separator in the path puts a part of the path or the name in the place of the number of
the block. -/
theorem roundTrips_of_shifted (member : f ∈ m.functions) (named : f.name ≠ [])
    (split : (function_to_strID f).splitOn '-' = path :: f.name :: no :: more) : RoundTrips m f ↔ Spells f := by
  have found := (getFunction_eq_some_iff member).mpr ⟨rfl, named⟩
  have block : ∀ b ∈ f.blocks, (strID_to_basicblock m (basicblock_to_strID f b) = .ok (some b) ↔
        stoi no = .ok (f.blocks.idxOf b : Int)) := by
    intro b inside
    exact strID_to_basicblock_eq_iff (by rw [basicblock_splitOn, split]; rfl) found inside
  obtain ⟨noInst, others, further⟩ : ∃ noInst others, more ++ [['0']] = noInst :: others := by
    cases more with
    | nil => exact ⟨_, _, rfl⟩
    | cons first rest => exact ⟨_, _, rfl⟩
  have whole : (function_to_strID f ++ ['-', '0']).splitOn '-' = path :: f.name :: no :: noInst :: others := by
    rw [splitOn_append_cons_self, split, ← further]
    rfl
  have instruction : ∀ b, f.blocks = [b] → stoi no = .ok 0 → ∀ inst ∈ b.instructions,
      (strID_to_inst m (inst_to_strID f b inst) = .ok (some inst) ↔ stoi noInst = .ok (b.instructions.idxOf inst : Int)) := by
    intro b only read inst within
    have index : f.blocks.idxOf b = 0 := by simp [only]
    have parts : (inst_to_strID f b inst).splitOn '-' = path :: f.name :: no :: noInst ::
        (others ++ [Nat.toDigits 10 (b.instructions.idxOf inst)]) := by
      rw [inst_splitOn, split, index, ← cons_append, ← further]
      simp
    have inside : b ∈ f.blocks := by simp [only]
    refine strID_to_inst_eq_iff parts ((strID_to_basicblock_eq_iff parts found inside).mpr ?_) within
    rw [read, index]
    rfl
  constructor
  · intro back
    have single := (one_number_iff f.distinct).mp fun b inside =>
      (block b inside).mp (back.blocks b inside)
    refine ⟨path, no, noInst, others, whole, ?_⟩
    rcases single with none | ⟨b, only, read⟩
    · exact .inl none
    · refine .inr ⟨b, only, read, (one_number_iff b.distinct).mp fun inst within => ?_⟩
      exact (instruction b only read inst within).mp (back.instructions b (by simp [only]) inst within)
  · rintro ⟨path', no', noInst', others', parts, single⟩
    rw [whole] at parts
    obtain ⟨-, rfl, rfl, -⟩ := parts
    constructor
    · exact (function_roundTrips_iff member split).mpr ⟨rfl, named⟩
    · intro b inside
      refine (block b inside).mpr ((one_number_iff f.distinct).mpr ?_ b inside)
      rcases single with none | ⟨b, only, read, -⟩
      · exact .inl none
      · exact .inr ⟨b, only, read⟩
    · intro b inside inst within
      rcases single with none | ⟨c, only, read, numbers⟩
      · simp [none] at inside
      · obtain rfl : b = c := by simpa [only] using inside
        exact (instruction b only read inst within).mpr ((one_number_iff b.distinct).mpr numbers inst within)

theorem exists_shifted_parts (separator : '-' ∈ f.path) :
    ∃ path name no more, (function_to_strID f).splitOn '-' = path :: name :: no :: more := by
  obtain ⟨front, rest, behind, free⟩ := exists_first separator
  rw [function_splitOn, behind, splitOn_append_cons_self_of_not_mem free]
  cases path : rest.splitOn '-' with
  | nil => exact absurd path (splitOn_ne_nil _ _)
  | cons second others =>
    cases name : f.name.splitOn '-' with
    | nil => exact absurd name (splitOn_ne_nil _ _)
    | cons part more =>
      cases others with
      | nil => exact ⟨_, _, _, _, rfl⟩
      | cons third others => exact ⟨_, _, _, _, rfl⟩

theorem Spells.few (spells : Spells f) : f.blocks.length ≤ 2 ^ 31 ∧ ∀ b ∈ f.blocks, b.instructions.length ≤ 2 ^ 31 := by
  obtain ⟨path, no, noInst, more, -, single⟩ := spells
  rcases single with none | ⟨b, only, -, numbers⟩
  · simp [none]
  · rcases numbers with none | ⟨inst, one, -⟩
    · simp [only, none]
    · simp [only, one]

theorem roundTrips_iff_separable (member : f ∈ m.functions) : RoundTrips m f ↔ Separable f := by
  constructor
  · intro back
    obtain ⟨path, name, more, split⟩ := exists_parts f
    obtain ⟨rfl, named⟩ := (function_roundTrips_iff member split).mp back.function
    have clear : '-' ∉ f.name := not_mem_segment (split ▸ mem_cons_of_mem _ mem_cons_self)
    by_cases free : '-' ∈ f.path
    · obtain ⟨path', name', no, more', parts⟩ := exists_shifted_parts free
      rw [parts, List.cons.injEq, List.cons.injEq] at split
      obtain ⟨-, rfl, -⟩ := split
      have spells := (roundTrips_of_shifted member named parts).mp back
      exact ⟨named, clear, .inr spells, spells.few.1, spells.few.2⟩
    · obtain ⟨few, short⟩ := (roundTrips_of_clear member named clear free).mp back
      exact ⟨named, clear, .inl free, few, short⟩
  · intro separable
    by_cases free : '-' ∈ f.path
    · have spells := separable.path.resolve_left (not_not_intro free)
      obtain ⟨path, name, no, more, parts⟩ := exists_shifted_parts free
      obtain ⟨path', no', noInst, more', spelled, -⟩ := id spells
      rw [splitOn_append_cons_self, parts] at spelled
      obtain rfl : name = f.name := by simpa using (List.cons.inj (List.cons.inj spelled).2).1
      exact (roundTrips_of_shifted member separable.named parts).mpr spells
    · exact (roundTrips_of_clear member separable.named separable.name free).mpr ⟨separable.blocks, separable.instructions⟩

/-- Identifiers are invertible exactly where every function is separable: it has a name, the
name has no separator, and neither does the path unless its parts happen to be read as the
name and the numbers. -/
theorem strID_invertible_iff (m : Module) : Invertible m ↔ ∀ f ∈ m.functions, Separable f := by
  rw [invertible_iff]
  exact forall₂_congr fun f member => roundTrips_iff_separable member

def dashedPath : Module where
  functions := [⟨"my-prog.c".toList, "main".toList, [⟨0, [1], by decide⟩], by decide⟩]
  symbols := List.pairwise_singleton _ _

theorem strID_dashed_path : ¬ Invertible dashedPath := by
  intro invertible
  have found := (invertible.roundTrips _ mem_cons_self).function
  revert found
  decide

end Condition

/-! ## Chains of unnamed blocks -/

section Chains

open Relation

variable {f : Function} (cfg : ControlFlow f) {b r : BasicBlock}

def ControlFlow.Back (b pred : BasicBlock) : Prop :=
  cfg.hasName b = false ∧ (cfg.predecessors b).head? = some pred

def ControlFlow.Forth (b succ : BasicBlock) : Prop :=
  (cfg.successors b).find? (fun succ => !cfg.hasName succ) = some succ

/-- Both functions find a named block that a chain of unnamed blocks leads to. -/
def ControlFlow.FindsNamed : Prop :=
  ∀ b ∈ f.blocks,
    (∃ r, Returns (fun fuel => get_real_basic_block cfg fuel b) r ∧ r ∈ f.blocks ∧
      cfg.hasName r ∧ ReflTransGen cfg.Back b r) ∧
    ∃ r, Returns (fun fuel => get_final_basic_block cfg fuel b) r ∧ r ∈ f.blocks ∧
      cfg.hasName r ∧ ReflTransGen cfg.Forth b r

variable {cfg}

theorem get_real_of_chain (chain : ReflTransGen cfg.Back b r) (named : cfg.hasName r) :
    Returns (fun fuel => get_real_basic_block cfg fuel b) r := by
  induction chain using ReflTransGen.head_induction_on with
  | refl =>
    refine .succ (.of_eq fun fuel => ?_)
    rw [get_real_basic_block, if_pos named]
    rfl
  | head step _ ih =>
    refine .succ ?_
    obtain ⟨preds, first⟩ := head?_eq_some_iff.mp step.2
    simpa only [get_real_basic_block, step.1, Bool.false_eq_true, if_false, first] using ih

theorem chain_of_get_real {fuel : Nat} (returned : get_real_basic_block cfg fuel b = .ok r) :
    cfg.hasName r ∧ ReflTransGen cfg.Back b r := by
  induction fuel generalizing b with
  | zero => cases returned
  | succ fuel ih =>
    rw [get_real_basic_block] at returned
    split at returned
    · rename_i named
      obtain rfl : b = r := Except.ok.inj returned
      exact ⟨named, .refl⟩
    · rename_i unnamed
      split at returned
      · cases returned
      · rename_i first
        obtain ⟨named, chain⟩ := ih returned
        exact ⟨named, chain.head ⟨Bool.eq_false_iff.mpr unnamed, by rw [first]; rfl⟩⟩

theorem get_final_of_chain (chain : ReflTransGen cfg.Forth b r) (last : ∀ succ ∈ cfg.successors r, cfg.hasName succ) :
    Returns (fun fuel => get_final_basic_block cfg fuel b) r := by
  induction chain using ReflTransGen.head_induction_on with
  | refl =>
    have none : (cfg.successors r).find? (fun succ => !cfg.hasName succ) = none := by
      simpa using last
    refine .succ (.of_eq fun fuel => ?_)
    rw [get_final_basic_block, none]
    rfl
  | head step _ ih =>
    refine .succ ?_
    rw [ControlFlow.Forth] at step
    simpa only [get_final_basic_block, step] using ih

theorem chain_of_get_final {fuel : Nat} (returned : get_final_basic_block cfg fuel b = .ok r) :
    (∀ succ ∈ cfg.successors r, cfg.hasName succ) ∧ ReflTransGen cfg.Forth b r := by
  induction fuel generalizing b with
  | zero => cases returned
  | succ fuel ih =>
    rw [get_final_basic_block] at returned
    split at returned
    · rename_i step
      obtain ⟨last, chain⟩ := ih returned
      exact ⟨last, chain.head step⟩
    · rename_i none
      obtain rfl : b = r := Except.ok.inj returned
      exact ⟨by simpa using none, .refl⟩

theorem ControlFlow.Back.mem (step : cfg.Back b r) : r ∈ f.blocks :=
  ((cfg.users b r).mp (mem_of_head? step.2)).1

theorem ControlFlow.Forth.mem (step : cfg.Forth b r) (member : b ∈ f.blocks) : r ∈ f.blocks :=
  cfg.inside b member (mem_of_find?_eq_some step)

/-- Following unnamed blocks back ends in a named block, following them forth in the last one. -/
theorem basic_block_chains (cfg : ControlFlow f) (member : b ∈ f.blocks) :
    (Returns (fun fuel => get_real_basic_block cfg fuel b) r ↔
      r ∈ f.blocks ∧ cfg.hasName r ∧ ReflTransGen cfg.Back b r) ∧
    (Returns (fun fuel => get_final_basic_block cfg fuel b) r ↔
      r ∈ f.blocks ∧ (r = b ∨ cfg.hasName r = false) ∧ ReflTransGen cfg.Forth b r ∧
        ∀ succ ∈ cfg.successors r, cfg.hasName succ) := by
  refine ⟨⟨fun returns => ?_, fun ⟨_, named, chain⟩ => get_real_of_chain chain named⟩,
    fun returns => ?_, fun ⟨_, _, chain, last⟩ => get_final_of_chain chain last⟩
  · obtain ⟨fuel, returned⟩ := returns.some_fuel
    obtain ⟨named, chain⟩ := chain_of_get_real returned
    cases chain with
    | refl => exact ⟨member, named, .refl⟩
    | tail chain step => exact ⟨step.mem, named, chain.tail step⟩
  · obtain ⟨fuel, returned⟩ := returns.some_fuel
    obtain ⟨last, chain⟩ := chain_of_get_final returned
    have inside : r ∈ f.blocks := by
      clear last returns returned
      induction chain with
      | refl => exact member
      | tail _ step inside => exact step.mem inside
    refine ⟨inside, ?_, chain, last⟩
    cases chain with
    | refl => exact .inl rfl
    | tail _ step => exact .inr (by simpa using find?_some step)

def unnamedReturn : ControlFlow ⟨[], [], [⟨0, [1], by decide⟩, ⟨2, [3], by decide⟩], by decide⟩ where
  name b := if b.address = 0 then "entry".toList else []
  successors b := if b = ⟨0, [1], by decide⟩ then [⟨2, [3], by decide⟩] else []
  predecessors b := if b = ⟨2, [3], by decide⟩ then [⟨0, [1], by decide⟩] else []
  inside := by decide
  users := by
    intro b pred
    split <;> simp_all

theorem final_block_unnamed : ¬ unnamedReturn.FindsNamed := by
  intro finds
  obtain ⟨-, r, returns, -, named, -⟩ := finds ⟨2, [3], by decide⟩ (by decide)
  obtain ⟨fuel, returned⟩ := returns.some_fuel
  cases fuel with
  | zero => cases returned
  | succ fuel =>
    obtain rfl : (⟨2, [3], by decide⟩ : BasicBlock) = r := Except.ok.inj returned
    revert named
    decide

theorem basic_block_chains_sample :
    Returns (fun fuel => get_real_basic_block unnamedReturn fuel ⟨2, [3], by decide⟩)
      ⟨0, [1], by decide⟩ :=
  (basic_block_chains unnamedReturn (by decide)).1.mpr
    ⟨by decide, by decide, .single ⟨by decide, by decide⟩⟩

end Chains

end NeuroMerge.ToolLib
