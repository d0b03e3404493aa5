import Mathlib.Data.Finset.Card
import NeuroMerge.Foundations.Json

/-!
# Reading what was written
-/

namespace NeuroMerge

open List Json

mutual

def Json.toPy : Json → PyObject
  | .null => .none
  | .unsigned n => .int n
  | .string s => .str s
  | .array items => .list (Json.toPyItems items)
  | .object members => .dict (PyObject.dictOf (Json.toPyMembers members))

def Json.toPyItems : List Json → List PyObject
  | [] => []
  | item :: items => item.toPy :: Json.toPyItems items

def Json.toPyMembers : List (String × Json) → List (String × PyObject)
  | [] => []
  | (key, value) :: members => (key, value.toPy) :: Json.toPyMembers members

end

namespace Json

def Ascending (members : List (String × Json)) : Prop := members.Pairwise fun a b => a.1 < b.1

/-- The document is one that fields can be set in. -/
inductive IsRecord : Json → Prop where
  | null : IsRecord .null
  | object {members : List (String × Json)} (ascending : Ascending members) :
      IsRecord (.object members)

section Fields

variable {members : List (String × Json)} {j value : Json} {key other : String}

theorem mem_insert {member : String × Json} (inserted : member ∈ insert members key value) :
    member = (key, value) ∨ member ∈ members := by
  induction members with
  | nil => exact .inl (mem_singleton.mp inserted)
  | cons head members ih =>
    rw [insert] at inserted
    split at inserted
    · exact List.mem_cons.mp inserted
    · split at inserted
      · exact (List.mem_cons.mp inserted).imp id (mem_cons_of_mem _)
      · cases List.mem_cons.mp inserted with
        | inl isHead => exact .inr (isHead ▸ mem_cons_self)
        | inr later => exact (ih later).imp id (mem_cons_of_mem _)

theorem Ascending.insert (ascending : Ascending members) : Ascending (insert members key value) := by
  induction members with
  | nil => exact pairwise_singleton _ _
  | cons head members ih =>
    obtain ⟨above, rest⟩ := pairwise_cons.mp ascending
    rw [Json.insert]
    split
    · rename_i before
      refine pairwise_cons.mpr ⟨?_, ascending⟩
      intro member isMember
      cases List.mem_cons.mp isMember with
      | inl isHead => exact isHead ▸ before
      | inr later => exact lt_trans before (above member later)
    · rename_i notBefore
      split
      · rename_i same
        exact pairwise_cons.mpr ⟨fun member later => same ▸ above member later, rest⟩
      · rename_i different
        refine pairwise_cons.mpr ⟨?_, ih rest⟩
        intro member isMember
        cases mem_insert isMember with
        | inl new => exact new ▸ lt_of_le_of_ne (not_lt.mp notBefore) (Ne.symm different)
        | inr later => exact above member later

theorem lookup_insert : (insert members key value).lookup other = if other = key then some value else members.lookup other := by
  induction members with
  | nil =>
    rw [insert, List.lookup_cons]
    split <;> split <;> simp_all
  | cons head members ih =>
    rw [insert]
    split
    · rw [List.lookup_cons]
      split <;> split <;> simp_all
    · split
      · rename_i same
        subst same
        rw [List.lookup_cons, List.lookup_cons]
        split <;> split <;> simp_all
      · rw [List.lookup_cons, List.lookup_cons, ih]
        split <;> split <;> simp_all

section

variable (isRecord : IsRecord j)
include isRecord

theorem IsRecord.set : IsRecord (j.set key value) := by
  cases isRecord with
  | null => exact .object (pairwise_singleton _ _)
  | object ascending => exact .object ascending.insert

theorem IsRecord.modify {change : Json → Json} : IsRecord (j.modify key change) := isRecord.set

theorem get?_set : (j.set key value).get? other = if other = key then some value else j.get? other := by
  cases isRecord with
  | null => exact lookup_insert
  | object ascending => exact lookup_insert

theorem get?_modify {change : Json → Json} :
    (j.modify key change).get? other = if other = key then some (change ((j.get? key).getD null)) else j.get? other :=
  get?_set isRecord

theorem IsRecord.setAll (fields : List (String × Json)) : IsRecord (j.setAll fields) := by
  induction fields generalizing j with
  | nil => exact isRecord
  | cons field fields ih => exact ih isRecord.set

theorem get?_setAll (fields : List (String × Json)) : (j.setAll fields).get? key = (fields.reverse.lookup key).or (j.get? key) := by
  induction fields generalizing j with
  | nil => rfl
  | cons field fields ih =>
    obtain ⟨name, value⟩ := field
    change ((j.set name value).setAll fields).get? key = _
    rw [ih isRecord.set, get?_set isRecord, reverse_cons, lookup_append, Option.or_assoc]
    congr 1
    rw [List.lookup_cons, lookup_nil]
    by_cases same : key = name
    · subst same
      simp
    · rw [if_neg same, beq_false_of_ne same]
      rfl

end

def fields : Json → List (String × Json)
  | object members => members
  | _ => []

def keys (j : Json) : List String := j.fields.map Prod.fst

theorem IsRecord.nodup_keys (isRecord : IsRecord j) : j.keys.Nodup := by
  cases isRecord with
  | null => exact .nil
  | object ascending =>
    rw [keys, List.Nodup, pairwise_map]
    exact .imp (fun less => ne_of_lt less) ascending

theorem lookup_of_nodup (unique : (members.map Prod.fst).Nodup) (member : (key, value) ∈ members) : members.lookup key = some value := by
  induction members with
  | nil => cases member
  | cons head members ih =>
    obtain ⟨name, old⟩ := head
    obtain ⟨absent, rest⟩ := nodup_cons.mp unique
    rcases List.mem_cons.mp member with isHead | later
    · cases isHead
      exact lookup_cons_self
    · have different : key ≠ name := fun same => absent (mem_map.mpr ⟨_, later, same⟩)
      rw [List.lookup_cons, beq_false_of_ne different]
      exact ih rest later

theorem mem_keys_iff (isRecord : IsRecord j) : key ∈ j.keys ↔ (j.get? key).isSome := by
  cases isRecord with
  | null => simp [keys, fields, get?]
  | object => simp [keys, fields, get?]

theorem mem_keys_setAll (changes : List (String × Json)) : key ∈ (null.setAll changes).keys ↔ key ∈ changes.map Prod.fst := by
  rw [mem_keys_iff (IsRecord.null.setAll changes), get?_setAll .null]
  simp [get?]

theorem length_fields_setAll_iff (changes : List (String × Json)) :
    (null.setAll changes).fields.length = changes.length ↔ (changes.map Prod.fst).Nodup := by
  have unique := (IsRecord.null.setAll changes).nodup_keys
  have same : (null.setAll changes).keys.toFinset = (changes.map Prod.fst).toFinset := by
    ext key
    rw [mem_toFinset, mem_toFinset, mem_keys_setAll]
  have count : (null.setAll changes).fields.length = (changes.map Prod.fst).toFinset.card := by
    rw [← same, toFinset_card_of_nodup unique, keys, length_map]
  have total : changes.length = Multiset.card (changes.map Prod.fst : Multiset String) := by
    rw [Multiset.coe_card, length_map]
  rw [count, total]
  exact Multiset.toFinset_card_eq_card_iff_nodup

theorem get?_setAll_of_nodup {changes : List (String × Json)}
    (unique : (changes.map Prod.fst).Nodup) (change : (key, value) ∈ changes) : (null.setAll changes).get? key = some value := by
  have reversed : (changes.reverse.map Prod.fst).Nodup := by
    rw [map_reverse]
    exact nodup_reverse.mpr unique
  rw [get?_setAll .null, lookup_of_nodup reversed (mem_reverse.mpr change)]
  rfl

theorem mem_of_lookup (found : members.lookup key = some value) : (key, value) ∈ members := by
  obtain ⟨before, behind, rfl, -⟩ := lookup_eq_some_iff.mp found
  exact mem_append_right _ mem_cons_self

theorem fields_setAll_perm {changes : List (String × Json)} (unique : (changes.map Prod.fst).Nodup) :
    (null.setAll changes).fields.Perm changes := by
  have isRecord := IsRecord.null.setAll changes
  have read : ∀ key, (null.setAll changes).fields.lookup key = (null.setAll changes).get? key := by
    intro key
    cases null.setAll changes <;> rfl
  refine (perm_ext_iff_of_nodup (.of_map _ isRecord.nodup_keys) (.of_map _ unique)).mpr fun (key, value) => ?_
  constructor
  · intro member
    have found := lookup_of_nodup isRecord.nodup_keys member
    rw [read, get?_setAll .null] at found
    cases last : changes.reverse.lookup key with
    | none => simp [last, get?] at found
    | some other =>
      obtain rfl : other = value := by simpa [last] using found
      exact mem_reverse.mp (mem_of_lookup last)
  · intro change
    exact mem_of_lookup ((read key).trans (get?_setAll_of_nodup unique change))

end Fields

end Json

variable {c : Char} {rest : List Char}

namespace PyObject

open Json (escape quote dump dumpItems dumpMembers)

section Strings

theorem hexValue_hexDigit : ∀ n < 16, hexValue (hexDigit n) = some n := by decide

theorem hexDigit_mod (n : Nat) : hexDigit n = hexDigit (n % 16) := by
  rw [hexDigit, hexDigit, Nat.mod_mod]

theorem character_toNat (c : Char) : character c.toNat = some c := by
  have valid : c.toNat.isValidChar := c.valid
  rw [character, dif_pos valid]
  exact congrArg some (Char.ext rfl)

theorem readString_plain (notQuote : c ≠ '"') (notBackslash : c ≠ '\\') (notControl : ¬ c.toNat < 32) (text : List Char) :
    readString (c :: text) = (readString text).map fun result => (c :: result.1, result.2) := by
  rw [readString.eq_def]
  split
  · rename_i same
    cases same
  · rename_i same
    cases same
    exact absurd rfl notQuote
  · rename_i same
    cases same
    exact absurd rfl notBackslash
  · rename_i same
    cases same
    exact absurd rfl notBackslash
  · rename_i same
    cases same
    simp only [notControl, if_false]
    cases readString text <;> rfl

theorem readString_short {e : Char} (short : e ≠ 'u') (escapes : unescape e = some c) (text : List Char) :
    readString ('\\' :: e :: text) = (readString text).map fun result => (c :: result.1, result.2) := by
  rw [readString.eq_def]
  split
  · rename_i same
    cases same
  · rename_i same
    cases same
  · rename_i same
    cases same
    exact absurd rfl short
  · rename_i same
    cases same
    rw [escapes]
    cases readString text <;> rfl
  · rename_i other same
    cases same
    exact (other _ _ rfl rfl).elim

theorem readString_escape (c : Char) (text : List Char) :
    readString (escape c ++ text) = (readString text).map fun result => (c :: result.1, result.2) := by
  fun_cases escape c
  case case9 notQuote notBackslash _ _ _ _ _ notControl =>
    exact readString_plain notQuote notBackslash notControl text
  case case8 control =>
    have high : hexValue (hexDigit (c.toNat / 16)) = some (c.toNat / 16) := hexValue_hexDigit _ (by omega)
    have low : hexValue (hexDigit c.toNat) = some (c.toNat % 16) := by
      rw [hexDigit_mod]
      exact hexValue_hexDigit _ (by omega)
    have zero : hexValue '0' = some 0 := by decide
    have code : 16 * (16 * (16 * 0 + 0) + c.toNat / 16) + c.toNat % 16 = c.toNat := by omega
    simp only [cons_append, nil_append, readString, zero, high, low, Option.bind_eq_bind, Option.bind_some, code, character_toNat]
    cases readString text <;> rfl
  all_goals
    subst_vars
    exact readString_short (by decide) (by decide) text

theorem readString_quote (s rest : List Char) : readString (s.flatMap escape ++ '"' :: rest) = some (s, rest) := by
  induction s with
  | nil => rfl
  | cons c s ih => rw [flatMap_cons, append_assoc, readString_escape, ih]; rfl

end Strings

section Numbers

def continuesNumber (c : Char) : Bool := c.isDigit || c = '.' || c = 'e' || c = 'E'

def Ends (text : List Char) : Prop := ∀ c ∈ text.head?, continuesNumber c = false

theorem span_isDigit {digits : List Char} (all : ∀ c ∈ digits, c.isDigit) (ends : Ends rest) :
    (digits ++ rest).span Char.isDigit = (digits, rest) := by
  rw [span_eq_takeWhile_dropWhile]
  have stops : rest.takeWhile Char.isDigit = [] ∧ rest.dropWhile Char.isDigit = rest := by
    cases rest with
    | nil => exact ⟨rfl, rfl⟩
    | cons c rest =>
      have notDigit : c.isDigit = false := by
        have outside := ends c rfl
        simp only [continuesNumber, Bool.or_eq_false_iff] at outside
        exact outside.1.1.1
      simp [notDigit]
  rw [takeWhile_append_of_pos all, dropWhile_append_of_pos all, stops.1, stops.2, append_nil]

theorem Ends.head (ends : Ends (c :: rest)) : c.isDigit = false ∧ c ≠ '.' ∧ c ≠ 'e' ∧ c ≠ 'E' := by
  have outside := ends c rfl
  simpa [continuesNumber, and_assoc] using outside

theorem readFraction_of_ends (ends : Ends rest) : readFraction rest = (.none, rest) := by
  rw [readFraction.eq_def]
  split
  · exact absurd rfl ends.head.2.1
  · rfl

theorem readExponent_of_ends (ends : Ends rest) : readExponent rest = (.none, rest) := by
  cases rest with
  | nil => rfl
  | cons c rest =>
    obtain ⟨-, -, notLower, notUpper⟩ := ends.head
    simp only [readExponent, notLower, notUpper, or_self, if_false]

theorem toDigits_head (n : Nat) : ∃ c digits, Nat.toDigits 10 n = c :: digits ∧ (c = '0' → digits = []) := by
  induction n using Nat.strongRecOn with
  | ind n ih =>
    by_cases small : n < 10
    · exact ⟨_, _, Nat.toDigits_of_lt_base small, fun _ => rfl⟩
    · obtain ⟨c, digits, isHead, zero⟩ := ih (n / 10) (by omega)
      refine ⟨c, digits ++ [(n % 10).digitChar], ?_, ?_⟩
      · rw [Nat.toDigits_of_base_le (by decide) (by omega), isHead]
        rfl
      · intro isZero
        subst isZero
        have value : Nat.ofDigitChars 10 (Nat.toDigits 10 (n / 10)) 0 = n / 10 := Nat.ofDigitChars_ten_toDigits
        rw [isHead, zero rfl] at value
        have none : Nat.ofDigitChars 10 ['0'] 0 = 0 := by decide
        omega

theorem toDigits_isDigit {n : Nat} (member : c ∈ Nat.toDigits 10 n) : c.isDigit :=
  Nat.isDigit_of_mem_toDigits (by decide) (by decide) member

theorem readSign_toDigits (n : Nat) (rest : List Char) : readSign (Nat.toDigits 10 n ++ rest) = (false, Nat.toDigits 10 n ++ rest) := by
  obtain ⟨c, digits, isHead, -⟩ := toDigits_head n
  have isDigit : c.isDigit := toDigits_isDigit (n := n) (by rw [isHead]; exact mem_cons_self)
  rw [isHead, cons_append, readSign.eq_def]
  split
  · rename_i same
    cases same
    cases isDigit
  · rfl

theorem readWhole_toDigits (n : Nat) (ends : Ends rest) : readWhole (Nat.toDigits 10 n ++ rest) = (Nat.toDigits 10 n, rest) := by
  rw [readWhole.eq_def]
  split
  · rename_i same
    obtain ⟨c, digits, isHead, zero⟩ := toDigits_head n
    rw [isHead] at same ⊢
    cases same
    rw [zero rfl]
    rfl
  · exact span_isDigit (fun _ => toDigits_isDigit) ends

theorem readNumber_toDigits (n : Nat) (ends : Ends rest) : readNumber (Nat.toDigits 10 n ++ rest) = some (.int n, rest) := by
  simp only [readNumber, readSign_toDigits, readWhole_toDigits n ends, readFraction_of_ends ends,
    readExponent_of_ends ends, Nat.ofDigitChars_ten_toDigits, Nat.toDigits_ne_nil, if_false,
    and_self, if_true]
  rfl

end Numbers

section Values

theorem skipSpaces_cons (visible : isSpace c = false) (rest : List Char) : skipSpaces (c :: rest) = c :: rest := by
  rw [skipSpaces, dropWhile_cons_of_neg (by simp [visible])]

theorem dump_head (j : Json) : ∃ c text, dump j = c :: text ∧ isSpace c = false ∧ c ≠ ']' := by
  cases j with
  | null => exact ⟨_, _, by rw [dump], by decide, by decide⟩
  | unsigned n =>
    obtain ⟨c, digits, isHead, -⟩ := toDigits_head n
    have isDigit : c.isDigit := toDigits_isDigit (n := n) (by rw [isHead]; exact mem_cons_self)
    refine ⟨c, digits, by rw [dump, isHead], ?_, ?_⟩
    · cases visible : isSpace c with
      | false => rfl
      | true =>
        simp only [isSpace, Bool.or_eq_true, decide_eq_true_eq] at visible
        obtain ((rfl | rfl) | rfl) | rfl := visible <;> cases isDigit
    · rintro rfl
      cases isDigit
  | string s => exact ⟨_, _, by rw [dump, quote], by decide, by decide⟩
  | array items =>
    cases items with
    | nil => exact ⟨_, _, by rw [dump], by decide, by decide⟩
    | cons item items => exact ⟨_, _, by rw [dump], by decide, by decide⟩
  | object members =>
    cases members with
    | nil => exact ⟨_, _, by rw [dump], by decide, by decide⟩
    | cons member members => exact ⟨_, _, by rw [dump], by decide, by decide⟩

theorem skipSpaces_dump (j : Json) (rest : List Char) : skipSpaces (dump j ++ rest) = dump j ++ rest := by
  obtain ⟨c, text, isHead, visible, -⟩ := dump_head j
  rw [isHead, cons_append, skipSpaces_cons visible]

theorem dumpItems_ends (items : List Json) (rest : List Char) : Ends (dumpItems items ++ rest) := by
  cases items with
  | nil => simp [Ends, dumpItems]; decide
  | cons item items => simp [Ends, dumpItems]; decide

theorem dumpMembers_ends (members : List (String × Json)) (rest : List Char) : Ends (dumpMembers members ++ rest) := by
  cases members with
  | nil => simp [Ends, dumpMembers]; decide
  | cons member members => simp [Ends, dumpMembers]; decide

theorem readMember_dump {fuel : Nat} (key : String) {value : Json}
    (returned : readValue fuel (dump value ++ rest) = some (value.toPy, rest)) :
    readMember (fuel + 1) (quote key ++ ':' :: (dump value ++ rest)) = some ((key, value.toPy), rest) := by
  have quoted : readString (key.toList.flatMap escape ++ '"' :: ':' :: (dump value ++ rest)) =
      some (key.toList, ':' :: (dump value ++ rest)) := readString_quote _ _
  simp only [quote, cons_append, append_assoc, nil_append, readMember, quoted,
    Option.bind_eq_bind, Option.bind_some, skipSpaces_cons (show isSpace ':' = false by decide),
    skipSpaces_dump, returned, String.ofList_toList]

mutual

theorem readValue_dump (j : Json) (fuel : Nat) (rest : List Char) (enough : (dump j).length ≤ fuel) (ends : Ends rest) :
    readValue fuel (dump j ++ rest) = some (j.toPy, rest) := by
  obtain ⟨first, text, isHead, -, -⟩ := dump_head j
  obtain ⟨fuel, rfl⟩ : ∃ n, fuel = n + 1 := by
    rw [isHead, length_cons] at enough
    exact ⟨fuel - 1, by omega⟩
  match j with
  | .null => rfl
  | .unsigned n =>
    have number := readNumber_toDigits n ends
    obtain ⟨c, digits, isDigits, -⟩ := toDigits_head n
    have isDigit : c.isDigit := toDigits_isDigit (n := n) (by rw [isDigits]; exact mem_cons_self)
    rw [dump, toPy, ← number, isDigits, cons_append, readValue.eq_def]
    dsimp only
    split <;> first
      | rfl
      | (rename_i same
         injection same with isFirst
         subst isFirst
         cases isDigit)
  | .string s =>
    have quoted : readString (s.toList.flatMap escape ++ '"' :: rest) = some (s.toList, rest) := readString_quote _ _
    simp only [dump, quote, cons_append, append_assoc, nil_append, readValue, quoted,
      Option.bind_eq_bind, Option.bind_some, String.ofList_toList, toPy]
  | .array [] => simp [dump, readValue, skipSpaces, isSpace, toPy, toPyItems]
  | .array (item :: items) =>
    simp only [dump, length_cons, length_append] at enough
    have value := readValue_dump item fuel (dumpItems items ++ rest) (by omega) (dumpItems_ends items rest)
    have later := readItems_dump items fuel rest (by omega)
    obtain ⟨c, text, isItem, visible, open'⟩ := dump_head item
    simp only [dump, cons_append, append_assoc, readValue, toPy, toPyItems]
    rw [skipSpaces_dump]
    split
    · rename_i same
      rw [isItem] at same
      cases same
      exact absurd rfl open'
    · simp only [value, later, Option.bind_eq_bind, Option.bind_some]
  | .object [] => simp [dump, readValue, skipSpaces, isSpace, toPy, toPyMembers, dictOf]
  | .object ((key, value) :: members) =>
    simp only [dump, length_cons, length_append, quote] at enough
    obtain ⟨fuel, rfl⟩ : ∃ n, fuel = n + 1 := ⟨fuel - 1, by omega⟩
    have read := readValue_dump value fuel (dumpMembers members ++ rest) (by omega) (dumpMembers_ends members rest)
    have member := readMember_dump key read
    have later := readMembers_dump members (fuel + 1) rest (by omega)
    have quoted : quote key = '"' :: (key.toList.flatMap escape ++ ['"']) := rfl
    have visible : skipSpaces (quote key ++ ':' :: (dump value ++ (dumpMembers members ++ rest))) =
        quote key ++ ':' :: (dump value ++ (dumpMembers members ++ rest)) := by
      rw [quoted, cons_append]
      exact skipSpaces_cons (by decide) _
    simp only [dump, cons_append, append_assoc, readValue, toPy, toPyMembers]
    rw [visible]
    split
    · rename_i same
      rw [quoted] at same
      cases same
    · simp only [member, later, Option.bind_eq_bind, Option.bind_some]

theorem readItems_dump (items : List Json) (fuel : Nat) (rest : List Char) (enough : (dumpItems items).length ≤ fuel) :
    readItems fuel (dumpItems items ++ rest) = some (toPyItems items, rest) := by
  match items, fuel with
  | [], fuel + 1 => rfl
  | item :: items, fuel + 1 =>
    simp only [dumpItems, length_cons, length_append] at enough
    have first := readValue_dump item fuel (dumpItems items ++ rest) (by omega) (dumpItems_ends items rest)
    have later := readItems_dump items fuel rest (by omega)
    simp only [dumpItems, cons_append, append_assoc, readItems,
      skipSpaces_cons (show isSpace ',' = false by decide), skipSpaces_dump, first, later,
      Option.bind_eq_bind, Option.bind_some, toPyItems]

theorem readMembers_dump (members : List (String × Json)) (fuel : Nat) (rest : List Char) (enough : (dumpMembers members).length ≤ fuel) :
    readMembers fuel (dumpMembers members ++ rest) = some (toPyMembers members, rest) := by
  match members, fuel with
  | [], fuel + 1 => rfl
  | (key, value) :: members, fuel + 1 =>
    simp only [dumpMembers, length_cons, length_append, quote] at enough
    obtain ⟨fuel, rfl⟩ : ∃ n, fuel = n + 1 := ⟨fuel - 1, by omega⟩
    have read := readValue_dump value fuel (dumpMembers members ++ rest) (by omega) (dumpMembers_ends members rest)
    have member := readMember_dump key read
    have later := readMembers_dump members (fuel + 1) rest (by omega)
    have visible : skipSpaces (quote key ++ ':' :: (dump value ++ (dumpMembers members ++ rest))) =
        quote key ++ ':' :: (dump value ++ (dumpMembers members ++ rest)) :=
      skipSpaces_cons (by decide) _
    rw [readMembers]
    simp only [dumpMembers, cons_append, append_assoc, skipSpaces_cons (show isSpace ',' = false by decide), visible, member, later,
      Option.bind_eq_bind, Option.bind_some, toPyMembers]

end

section Dictionaries

theorem assign_of_notMem {members : List (String × PyObject)} {key : String} {value : PyObject}
    (missing : key ∉ members.map Prod.fst) : assign members key value = members ++ [(key, value)] := by
  induction members with
  | nil => rfl
  | cons head members ih =>
    rw [map_cons, mem_cons, not_or] at missing
    rw [assign, if_neg (Ne.symm missing.1), ih missing.2]
    rfl

theorem dictOf_of_nodup {pairs : List (String × PyObject)} (distinct : (pairs.map Prod.fst).Nodup) : dictOf pairs = pairs := by
  have loop : ∀ (rest members : List (String × PyObject)), ((members ++ rest).map Prod.fst).Nodup →
        rest.foldl (fun members pair => assign members pair.1 pair.2) members = members ++ rest := by
    intro rest
    induction rest with
    | nil => simp
    | cons pair rest ih =>
      intro members distinct
      have missing : pair.1 ∉ members.map Prod.fst := by
        rw [map_append, nodup_append] at distinct
        intro member
        exact distinct.2.2 _ member pair.1 (by simp) rfl
      rw [foldl_cons, assign_of_notMem missing, ih _ (by simpa using distinct)]
      simp
  exact loop pairs [] distinct

theorem toPyMembers_eq_map (members : List (String × Json)) :
    toPyMembers members = members.map fun member => (member.1, member.2.toPy) := by
  induction members with
  | nil => rfl
  | cons head members ih => rw [toPyMembers, ih]; rfl

section

variable {members : List (String × Json)} (ascending : Json.Ascending members)
include ascending

theorem dictOf_toPyMembers : dictOf (toPyMembers members) = members.map fun member => (member.1, member.2.toPy) := by
  rw [toPyMembers_eq_map]
  apply dictOf_of_nodup
  rw [map_map, List.Nodup, pairwise_map]
  exact .imp (fun less => ne_of_lt less) ascending

theorem lookup_dictOf_toPyMembers (key : String) : (dictOf (toPyMembers members)).lookup key = (members.lookup key).map toPy := by
  rw [dictOf_toPyMembers ascending]
  clear ascending
  induction members with
  | nil => rfl
  | cons head members ih =>
    obtain ⟨name, old⟩ := head
    rw [map_cons, List.lookup_cons, List.lookup_cons, ih]
    cases key == name <;> rfl

theorem get_toPy (key : String) : (Json.object members).toPy.get key = .ok (((members.lookup key).map toPy).getD none) := by
  rw [toPy, get, lookup_dictOf_toPyMembers ascending]
  rfl

theorem getItem_toPy {key : String} {value : Json} (field : members.lookup key = some value) :
    (Json.object members).toPy.getItem key = .ok value.toPy := by
  rw [toPy, getItem, lookup_dictOf_toPyMembers ascending, field]
  rfl

end

end Dictionaries

theorem loads_dump (j : Json) : loads j.dump = .ok j.toPy := by
  have read := readValue_dump j (j.dump.length + 1) [] (Nat.le_succ _) nofun
  have start := skipSpaces_dump j []
  rw [append_nil] at read start
  rw [loads, start, read]
  rfl

end Values

end PyObject

end NeuroMerge
