import Mathlib.Algebra.Ring.Nat
import Mathlib.Tactic.Common

/-!
# Number tokens

The numbers of the query language: a sign, a prefix for the radix, and digits with
underscores between them.
-/

namespace NeuroMerge.Kquery

open List

/-! ## The lexer -/

/-- What `Lexer::LexNumber` goes over. -/
def continuesNumber (c : Char) : Bool := c.isAlphanum || c == '_'

/-- The length of the token that `Lexer::Lex` finds where a number starts, as its field of 32
bits keeps it. -/
def lexNumber : List Char → Option Nat
  | [] => none
  | c :: rest =>
    let length := ((rest.takeWhile continuesNumber).length + 1) % 2 ^ 32
    if c = '+' ∨ c = '-' then
      if rest.head?.any Char.isDigit then some length else none
    else if c.isDigit then some length
    else none

/-! ## The parser -/

inductive NumberError where
  | noDigits
  | invalidCharacter
  | outOfRange
  | zeroWidth
  deriving DecidableEq, Repr

inductive Radix where
  | decimal
  | binary
  | octal
  | hexadecimal
  deriving DecidableEq, Repr

namespace Radix

def value : Radix → Nat
  | decimal => 10
  | binary => 2
  | octal => 8
  | hexadecimal => 16

def bits : Radix → Nat
  | decimal => 4
  | binary => 1
  | octal => 3
  | hexadecimal => 4

end Radix

/-- The buffer of the lexer ends with a NUL. -/
def charAt (S : List Char) (i : Nat) : Char := S.getD i (Char.ofNat 0)

def digit? (c : Char) : Option Nat :=
  if c.isDigit then some (c.toNat - '0'.toNat)
  else if c.isLower then some (c.toNat - 'a'.toNat + 10)
  else if c.isUpper then some (c.toNat - 'A'.toNat + 10)
  else none

def accumulate (radix : Radix) {width : Nat} :
    List Char → BitVec width → Except NumberError (BitVec width)
  | [], val => .ok val
  | c :: rest, val =>
    if c = '_' then accumulate radix rest val
    else
      match digit? c with
      | none => .error .invalidCharacter
      | some digit =>
        if radix.value ≤ digit then .error .outOfRange
        else accumulate radix rest (val * BitVec.ofNat width radix.value + BitVec.ofNat width digit)

/-- What follows the sign and the prefix. The width is computed in 32 bits, and must not be
zero. The value is cut or extended with zeros to the type. -/
def parseDigits (type : Nat) (hasMinus : Bool) (radix : Radix) (S : List Char) :
    Except NumberError (BitVec type) :=
  let width := radix.bits * S.length % 2 ^ 32
  if width = 0 then .error .zeroWidth
  else (accumulate radix S (BitVec.ofNat width 0)).map fun val =>
    (if hasMinus then -val else val).setWidth type

def minus32 (n k : Nat) : Nat := (n + (2 ^ 32 - k)) % 2 ^ 32

/-- `ParserImpl::ParseNumberToken` behind the sign. -/
def parseUnsigned (type : Nat) (hasMinus : Bool) (length : Nat) (S : List Char) (N : Nat) :
    Except NumberError (BitVec type) :=
  let parse (radix : Radix) :=
    if minus32 N 2 = 0 then .error .noDigits
    else parseDigits type hasMinus radix ((S.drop 2).take (minus32 N 2))
  if 2 ≤ length ∧ charAt S 0 = '0' ∧ charAt S 1 = 'b' then parse .binary
  else if 2 ≤ length ∧ charAt S 0 = '0' ∧ charAt S 1 = 'o' then parse .octal
  else if 2 ≤ length ∧ charAt S 0 = '0' ∧ charAt S 1 = 'x' then parse .hexadecimal
  else parseDigits type hasMinus .decimal (S.take N)

/-- `ParserImpl::ParseNumberToken`, for a token at the start of the rest of the buffer. -/
def parseNumberToken (type : Nat) (start : List Char) (length : Nat) :
    Except NumberError (BitVec type) :=
  if charAt start 0 = '+' then
    parseUnsigned type false length (start.drop 1) (minus32 length 1)
  else if charAt start 0 = '-' then
    parseUnsigned type true length (start.drop 1) (minus32 length 1)
  else parseUnsigned type false length start length

/-! ## What the tokens stand for -/

def Radix.Allows (radix : Radix) (c : Char) : Prop :=
  c = '_' ∨ ∃ digit, digit? c = some digit ∧ digit < radix.value

def Radix.spelling : Radix → List Char
  | decimal => []
  | binary => ['0', 'b']
  | octal => ['0', 'o']
  | hexadecimal => ['0', 'x']

/-- The number that the digits are behind those before them, without underscores. -/
def Radix.magnitude (radix : Radix) : List Char → Nat → Nat
  | [], value => value
  | c :: rest, value =>
    magnitude radix rest ((digit? c).elim value fun digit => value * radix.value + digit)

def Radix.number (radix : Radix) (minus : Bool) (digits : List Char) : Int :=
  if minus then -radix.magnitude digits 0 else radix.magnitude digits 0

/-- A number as it is written. Without a prefix it starts with a digit. -/
structure Literal where
  sign : Option Bool
  radix : Radix
  digits : List Char
  allowed : ∀ c ∈ digits, radix.Allows c
  nonempty : digits ≠ []
  starts : radix = .decimal → digits.head? ≠ some '_'

namespace Literal

variable (l : Literal)

def minus : Bool := l.sign == some true

def body : List Char := l.radix.spelling ++ l.digits

def text : List Char := (l.sign.elim [] fun minus => [if minus then '-' else '+']) ++ l.body

def value : Int := l.radix.number l.minus l.digits

def seen : List Char := l.digits.take (l.digits.length % 2 ^ 32)

def width : Nat := l.radix.bits * l.seen.length % 2 ^ 32

/-- The length of the token has wrapped so that no prefix is looked for. -/
def Unprefixed : Prop := l.radix ≠ .decimal ∧ l.text.length % 2 ^ 32 < 2

instance : Decidable l.Unprefixed := inferInstanceAs (Decidable (_ ∧ _))

/-- A token of less than 2^30 characters is not negative, or not shorter than its type. In a
longer one the width may have wrapped, and in one of 2^32 characters the length. -/
def Fits (type : Nat) : Prop :=
  if l.Unprefixed then
    l.sign = none ∧ l.text.length % 2 ^ 32 = 1 ∧ BitVec.ofInt type l.value = BitVec.ofNat type 0
  else if l.radix.bits * l.digits.length < 2 ^ 32 then 0 ≤ l.value ∨ type ≤ l.width
  else
    l.width ≠ 0 ∧ (type ≤ l.width ∨ (BitVec.ofInt type l.value).toNat < 2 ^ l.width) ∧
      ((2 ^ min type l.width : Nat) : Int) ∣ l.radix.number l.minus l.seen - l.value

end Literal

/-! ## The parser computes the number, in its width -/

theorem accumulate_eq {radix : Radix} {digits : List Char} (width value : Nat) (allowed : ∀ c ∈ digits, radix.Allows c) :
    accumulate radix digits (BitVec.ofNat width value) = .ok (BitVec.ofNat width (radix.magnitude digits value)) := by
  induction digits generalizing value with
  | nil => rfl
  | cons c rest ih =>
    rw [forall_mem_cons] at allowed
    rw [accumulate, Radix.magnitude]
    rcases allowed.1 with rfl | ⟨digit, isDigit, small⟩
    · exact ih value allowed.2
    · have other : c ≠ '_' := by
        rintro rfl
        cases isDigit
      simp only [if_neg other, isDigit, if_neg (Nat.not_le.mpr small)]
      rw [← BitVec.ofNat_mul, ← BitVec.ofNat_add]
      exact ih _ allowed.2

theorem toNat_ofInt_mod {m n : Nat} (le : m ≤ n) (value : Int) : (BitVec.ofInt n value).toNat % 2 ^ m = (BitVec.ofInt m value).toNat := by
  have nonneg (k : Nat) : 0 ≤ value % (2 ^ k : Nat) := Int.emod_nonneg value (Int.natCast_ne_zero.mpr (Nat.ne_of_gt (Nat.two_pow_pos k)))
  have divides : ((2 ^ m : Nat) : Int) ∣ (2 ^ n : Nat) := Int.natCast_dvd_natCast.mpr (Nat.pow_dvd_pow 2 le)
  apply Int.ofNat_inj.mp
  rw [BitVec.toNat_ofInt, BitVec.toNat_ofInt, Int.natCast_emod, Int.toNat_of_nonneg (nonneg n),
    Int.toNat_of_nonneg (nonneg m), Int.emod_emod_of_dvd value divides]

theorem ofInt_eq_iff (n : Nat) (a b : Int) : BitVec.ofInt n a = BitVec.ofInt n b ↔ ((2 ^ n : Nat) : Int) ∣ a - b := by
  have nonneg (k : Int) : 0 ≤ k % (2 ^ n : Nat) := Int.emod_nonneg k (Int.natCast_ne_zero.mpr (Nat.ne_of_gt (Nat.two_pow_pos n)))
  rw [← BitVec.toNat_inj, BitVec.toNat_ofInt, BitVec.toNat_ofInt, ← Int.ofNat_inj,
    Int.toNat_of_nonneg (nonneg a), Int.toNat_of_nonneg (nonneg b),
    Int.emod_eq_emod_iff_emod_sub_eq_zero, Int.dvd_iff_emod_eq_zero]

theorem setWidth_ofInt_iff (width type : Nat) (a b : Int) :
    (BitVec.ofInt width a).setWidth type = BitVec.ofInt type b ↔
      (type ≤ width ∨ (BitVec.ofInt type b).toNat < 2 ^ width) ∧ ((2 ^ min type width : Nat) : Int) ∣ a - b := by
  rw [← BitVec.toNat_inj, BitVec.toNat_setWidth]
  by_cases shorter : type ≤ width
  · rw [toNat_ofInt_mod shorter, BitVec.toNat_inj, ofInt_eq_iff, Nat.min_eq_left shorter, and_iff_right (.inl shorter)]
  · have longer : width ≤ type := by omega
    have fits : (BitVec.ofInt width a).toNat < 2 ^ type := Nat.lt_of_lt_of_le (BitVec.isLt _) (Nat.pow_le_pow_right (by decide) longer)
    rw [Nat.mod_eq_of_lt fits, Nat.min_eq_right longer, ← ofInt_eq_iff, ← BitVec.toNat_inj,
      ← toNat_ofInt_mod longer b, or_iff_right shorter]
    constructor
    · intro same
      have small := BitVec.isLt (BitVec.ofInt width a)
      rw [same] at small
      exact ⟨small, by rw [same, Nat.mod_eq_of_lt small]⟩
    · rintro ⟨small, same⟩
      rw [same, Nat.mod_eq_of_lt small]

theorem parseDigits_eq_ok_iff (type : Nat) (minus : Bool) {radix : Radix} {digits : List Char}
    (allowed : ∀ c ∈ digits, radix.Allows c) (wanted : BitVec type) :
    parseDigits type minus radix digits = .ok wanted ↔
      radix.bits * digits.length % 2 ^ 32 ≠ 0 ∧
        (BitVec.ofInt (radix.bits * digits.length % 2 ^ 32) (radix.number minus digits)).setWidth type = wanted := by
  have value : accumulate radix digits (BitVec.ofNat (radix.bits * digits.length % 2 ^ 32) 0) = _ := accumulate_eq _ 0 allowed
  simp only [parseDigits, value, Radix.number]
  generalize radix.bits * digits.length % 2 ^ 32 = width
  by_cases zero : width = 0
  · simp [zero]
  · cases minus <;> simp [zero, Except.map, BitVec.ofInt_neg]

theorem magnitude_lt (radix : Radix) (digits : List Char) (allowed : ∀ c ∈ digits, radix.Allows c) (value : Nat) :
    radix.magnitude digits value < (value + 1) * 2 ^ (radix.bits * digits.length) := by
  induction digits generalizing value with
  | nil => simp [Radix.magnitude]
  | cons c rest ih =>
    rw [forall_mem_cons] at allowed
    have room : radix.value ≤ 2 ^ radix.bits := by cases radix <;> decide
    have after : 2 ^ (radix.bits * (rest.length + 1)) = 2 ^ radix.bits * 2 ^ (radix.bits * rest.length) := by
      rw [Nat.mul_succ, Nat.pow_add, Nat.mul_comm]
    rw [Radix.magnitude, length_cons, after, ← Nat.mul_assoc]
    refine Nat.lt_of_lt_of_le (ih allowed.2 _) (Nat.mul_le_mul_right _ ?_)
    rcases allowed.1 with rfl | ⟨digit, isDigit, small⟩
    · exact Nat.le_mul_of_pos_right _ (Nat.two_pow_pos _)
    · rw [isDigit]
      calc value * radix.value + digit + 1
        _ ≤ (value + 1) * radix.value := by
          rw [Nat.succ_mul]
          omega
        _ ≤ (value + 1) * 2 ^ radix.bits := Nat.mul_le_mul_left _ room

/-! ## The text of a number -/

namespace Literal

variable (l : Literal) (type : Nat)

theorem body_cons : ∃ c rest, l.body = c :: rest ∧ c.isDigit := by
  have ⟨sign, radix, digits, allowed, nonempty, starts⟩ := l
  cases radix with
  | decimal =>
    cases digits with
    | nil => exact absurd rfl nonempty
    | cons c rest =>
      refine ⟨c, rest, rfl, ?_⟩
      rcases allowed c mem_cons_self with rfl | ⟨digit, isDigit, small⟩
      · exact absurd rfl (starts rfl)
      · simp only [digit?, Radix.value] at isDigit small
        by_contra other
        grind
  | binary | octal | hexadecimal => exact ⟨'0', _, rfl, rfl⟩

theorem continuesNumber_of_allows {radix : Radix} {c : Char} (allows : radix.Allows c) : continuesNumber c := by
  rcases allows with rfl | ⟨digit, isDigit, -⟩
  · rfl
  · by_contra other
    have alpha : c.isAlpha = (c.isUpper || c.isLower) := rfl
    simp only [continuesNumber, Char.isAlphanum, alpha, Bool.or_eq_true, not_or] at other
    rw [digit?, if_neg other.1.2, if_neg other.1.1.2, if_neg other.1.1.1] at isDigit
    cases isDigit

theorem continuesNumber_of_mem_body {c : Char} (mem : c ∈ l.body) : continuesNumber c := by
  rcases mem_append.mp mem with spelled | digit
  · have all : l.radix.spelling.all continuesNumber := by cases l.radix <;> rfl
    exact all_eq_true.mp all c spelled
  · exact continuesNumber_of_allows (l.allowed c digit)

theorem parseNumberToken_text (rest : List Char) :
    parseNumberToken type (l.text ++ rest) (l.text.length % 2 ^ 32) =
      parseUnsigned type l.minus (l.text.length % 2 ^ 32) (l.body ++ rest) (l.body.length % 2 ^ 32) := by
  have length (n : Nat) : minus32 ((n + 1) % 2 ^ 32) 1 = n % 2 ^ 32 := by
    rw [minus32]
    omega
  have ⟨c, tail, body, digit⟩ := l.body_cons
  unfold parseNumberToken text minus
  cases l.sign with
  | some minus =>
    cases minus <;> simp [charAt, length, -Nat.reducePow]
  | none =>
    have first : charAt (l.body ++ rest) 0 = c := by
      rw [body]
      rfl
    have unsigned : c ≠ '+' ∧ c ≠ '-' := by
      constructor <;> (rintro rfl; cases digit)
    simp [first, unsigned]

def Ends (rest : List Char) : Prop := ∀ c ∈ rest.head?, continuesNumber c = false

section

variable {rest : List Char} (ends : Ends rest)

include ends

theorem takeWhile_body : (l.body ++ rest).takeWhile continuesNumber = l.body := by
  have none : rest.takeWhile continuesNumber = [] := by
    cases rest with
    | nil => rfl
    | cons c rest => rw [takeWhile_cons_of_neg (by simp [ends c rfl])]
  rw [takeWhile_append_of_pos fun c => l.continuesNumber_of_mem_body, none, append_nil]

theorem lexNumber_text : lexNumber (l.text ++ rest) = some (l.text.length % 2 ^ 32) := by
  have ⟨c, tail, body, digit⟩ := l.body_cons
  have all := l.takeWhile_body ends
  rw [text]
  cases sign : l.sign with
  | some minus =>
    have first : (l.body ++ rest).head?.any Char.isDigit := by
      rw [body]
      exact digit
    cases minus <;> simp [lexNumber, all, first, -head?_append]
  | none =>
    have unsigned : ¬(c = '+' ∨ c = '-') := by
      rintro (rfl | rfl) <;> cases digit
    rw [body, cons_append, takeWhile_cons_of_pos (by simp [continuesNumber, Char.isAlphanum, digit])] at all
    have tail_eq := (List.cons.inj all).2
    simp only [Option.elim_none, nil_append, body, cons_append, lexNumber, if_neg unsigned, if_pos digit, tail_eq, length_cons]

theorem charAt_one_ne (decimal : l.radix = .decimal) (letter : Char) (prefixed : letter = 'b' ∨ letter = 'o' ∨ letter = 'x') :
    charAt (l.digits ++ rest) 1 ≠ letter := by
  rintro rfl
  rcases digits : l.digits with _ | ⟨c, _ | ⟨d, tail⟩⟩
  · exact l.nonempty digits
  · have high : continuesNumber (charAt ([c] ++ rest) 1) := by
      rw [digits] at prefixed
      rcases prefixed with same | same | same <;> rw [same] <;> rfl
    cases rest with
    | nil => cases high
    | cons r rest => exact Bool.false_ne_true ((ends r rfl).symm.trans high)
  · have allows := l.allowed d (by simp [digits])
    rw [decimal] at allows
    rw [digits] at prefixed
    rcases prefixed with rfl | rfl | rfl <;> rcases allows with same | ⟨_, isDigit, small⟩ <;>
      first | cases same | (cases isDigit; exact absurd small (by decide))

theorem parseUnsigned_body (found : ¬l.Unprefixed) (wanted : BitVec type) :
    parseUnsigned type l.minus (l.text.length % 2 ^ 32) (l.body ++ rest)
        (l.body.length % 2 ^ 32) = .ok wanted ↔ parseDigits type l.minus l.radix l.seen = .ok wanted := by
  have length (n : Nat) : minus32 ((n + 2) % 2 ^ 32) 2 = n % 2 ^ 32 := by
    rw [minus32]
    omega
  have take : (l.digits ++ rest).take (l.digits.length % 2 ^ 32) = l.seen := take_append_of_le_length (Nat.mod_le _ _)
  have none (h : l.digits.length % 2 ^ 32 = 0) : parseDigits type l.minus l.radix l.seen ≠ .ok wanted := by
    simp [seen, h, parseDigits, -Nat.reducePow]
  cases radix : l.radix with
  | decimal =>
    have other := l.charAt_one_ne ends radix
    have body : l.body = l.digits := by
      rw [Literal.body, radix]
      rfl
    rw [body]
    simp [parseUnsigned, other, take, -Nat.reducePow]
  | binary | octal | hexadecimal =>
    have long : 2 ≤ l.text.length % 2 ^ 32 := Nat.not_lt.mp fun short => found ⟨by simp [radix], short⟩
    rw [radix] at none
    unfold body parseUnsigned
    rw [radix]
    by_cases zero : l.digits.length % 2 ^ 32 = 0
    · simp [Radix.spelling, charAt, long, length, zero, none, -Nat.reducePow]
    · simp [Radix.spelling, charAt, long, length, take, zero, -Nat.reducePow]

end

theorem parseUnsigned_unprefixed (rest : List Char) (unprefixed : l.Unprefixed) (wanted : BitVec type) :
    parseUnsigned type l.minus (l.text.length % 2 ^ 32) (l.body ++ rest)
        (l.body.length % 2 ^ 32) = .ok wanted ↔ l.sign = none ∧ l.text.length % 2 ^ 32 = 1 ∧ wanted = BitVec.ofNat type 0 := by
  have ⟨prefixed, short⟩ := unprefixed
  have ⟨letter, tail, body, outOfRange⟩ :
      ∃ letter tail, l.body = '0' :: letter :: tail ∧
        ∀ (width : Nat) rest, accumulate .decimal ('0' :: letter :: rest) (BitVec.ofNat width 0) = .error .outOfRange := by
    rw [Literal.body]
    cases radix : l.radix with
    | decimal => exact absurd radix prefixed
    | binary | octal | hexadecimal => exact ⟨_, _, rfl, fun _ _ => rfl⟩
  have lengths : l.text.length = l.body.length + (if l.sign.isSome then 1 else 0) := by
    rw [text]
    cases l.sign <;> simp [Nat.add_comm]
  simp only [parseUnsigned, Nat.not_le.mpr short, false_and, if_false]
  rcases N : l.body.length % 2 ^ 32 with _ | _ | N
  · have length : ¬(l.sign = none ∧ l.text.length % 2 ^ 32 = 1) := by
      rintro ⟨sign, one⟩
      rw [lengths, sign, Option.isSome_none, if_neg Bool.false_ne_true, Nat.add_zero] at one
      omega
    rw [← and_assoc]
    exact iff_of_false (by simp [parseDigits]) fun h => length h.1
  · cases sign : l.sign with
    | none =>
      have length : l.text.length % 2 ^ 32 = 1 := by
        rw [lengths, sign]
        exact N
      have zero : parseDigits type false .decimal ['0'] = .ok (BitVec.ofNat type 0) := by
        simp [parseDigits, accumulate, digit?, Radix.value, Radix.bits, Except.map]
      rw [length, body, minus, sign]
      change parseDigits type false .decimal ['0'] = .ok wanted ↔ _
      rw [zero, Except.ok.injEq, eq_comm, and_iff_right rfl, and_iff_right rfl]
    | some minus =>
      rw [lengths, sign, Option.isSome_some, if_pos rfl] at short
      omega
  · have signed : l.sign ≠ none := by
      intro sign
      rw [lengths, sign, Option.isSome_none, if_neg Bool.false_ne_true, Nat.add_zero] at short
      omega
    rw [body]
    simp only [cons_append, take_succ_cons, parseDigits, outOfRange, signed]
    split <;> simp [Except.map]

theorem seen_allowed : ∀ c ∈ l.seen, l.radix.Allows c :=
  fun c mem => l.allowed c (mem_of_mem_take mem)

/-- Where the width does not wrap, only negative numbers can be too short. -/
theorem fits_iff (found : ¬l.Unprefixed) : l.Fits type ↔
    l.width ≠ 0 ∧ (type ≤ l.width ∨ (BitVec.ofInt type l.value).toNat < 2 ^ l.width) ∧
      ((2 ^ min type l.width : Nat) : Int) ∣ l.radix.number l.minus l.seen - l.value := by
  unfold Fits
  rw [if_neg found]
  split
  · rename_i short
    have bits : 1 ≤ l.radix.bits := by cases l.radix <;> decide
    have few : l.digits.length < 2 ^ 32 := Nat.lt_of_le_of_lt (Nat.le_mul_of_pos_left _ bits) short
    have seen : l.seen = l.digits := by rw [Literal.seen, Nat.mod_eq_of_lt few, take_length]
    have width : l.width = l.radix.bits * l.digits.length := by
      rw [Literal.width, seen, Nat.mod_eq_of_lt short]
    have wide : l.width ≠ 0 := by
      rw [width]
      exact Nat.mul_ne_zero (Nat.ne_of_gt bits) (mt length_eq_zero_iff.mp l.nonempty)
    have bound : l.radix.magnitude l.digits 0 < 2 ^ l.width := by
      rw [width]
      simpa using magnitude_lt l.radix l.digits l.allowed 0
    rw [seen, ← value, Int.sub_self, and_iff_left (Int.dvd_zero _), or_comm, and_iff_right wide]
    refine or_congr_right' fun longer => ?_
    have grows : 2 ^ (l.width + 1) ≤ 2 ^ type := Nat.pow_le_pow_right (by decide) (by omega)
    rw [value, Radix.number]
    generalize l.radix.magnitude l.digits 0 = m at *
    by_cases negative : l.minus ∧ m ≠ 0
    · rw [if_pos negative.1, BitVec.ofInt_neg, BitVec.ofInt_natCast, BitVec.toNat_neg,
        BitVec.toNat_ofNat, Nat.mod_eq_of_lt (show m < 2 ^ type by omega),
        Nat.mod_eq_of_lt (by omega)]
      omega
    · have plain : (if l.minus then -(m : Int) else m) = m := by
        split
        · rename_i minus
          have zero : m = 0 := by
            by_contra some
            exact negative ⟨minus, some⟩
          rw [zero]
          rfl
        · rfl
      rw [plain, BitVec.ofInt_natCast, BitVec.toNat_ofNat]
      have le := Nat.mod_le m (2 ^ type)
      omega
  · rfl

/-- The lexer finds the whole number, and the parser computes it where it fits. -/
theorem parseNumberToken_exact {rest : List Char} (ends : Ends rest) :
    lexNumber (l.text ++ rest) = some (l.text.length % 2 ^ 32) ∧
      (parseNumberToken type (l.text ++ rest) (l.text.length % 2 ^ 32) =
          .ok (BitVec.ofInt type l.value) ↔
        l.Fits type) := by
  refine ⟨l.lexNumber_text ends, ?_⟩
  rw [parseNumberToken_text]
  by_cases unprefixed : l.Unprefixed
  · rw [parseUnsigned_unprefixed _ _ _ unprefixed, Fits, if_pos unprefixed]
  · rw [l.parseUnsigned_body type ends unprefixed, l.fits_iff type unprefixed,
      parseDigits_eq_ok_iff type l.minus l.seen_allowed, setWidth_ofInt_iff]
    rfl

def minusFive : Literal where
  sign := some true
  radix := .decimal
  digits := ['5']
  allowed := by simp [Radix.Allows, digit?, Radix.value]
  nonempty := by decide
  starts := by decide

theorem parseNumberToken_exact_sample :
    Ends [')'] ∧ (parseNumberToken 4 (minusFive.text ++ [')']) (minusFive.text.length % 2 ^ 32) =
      .ok (BitVec.ofInt 4 minusFive.value) ↔ minusFive.Fits 4) :=
  have ends : Ends [')'] := by
    rintro c same
    cases same
    rfl
  ⟨ends, (minusFive.parseNumberToken_exact 4 ends).2⟩

theorem minus_five_eq_eleven :
    lexNumber minusFive.text = some 2 ∧ minusFive.value = -5 ∧
      parseNumberToken 32 minusFive.text 2 = .ok (11#32) ∧
      parseNumberToken 32 minusFive.text 2 ≠ .ok (BitVec.ofInt 32 minusFive.value) := by
  decide

end Literal

end NeuroMerge.Kquery
