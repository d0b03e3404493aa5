import Mathlib.Data.String.Basic
import NeuroMerge.Foundations.Binary64

/-!
# JSON between two programs

A document is built and written by `nlohmann::json` (`Json`) and read by the Python
module `json` (`PyObject`). What is read is what was written.
-/

namespace NeuroMerge

/-- The documents that are written: `nlohmann::json` without booleans and floating
numbers. An object is a `std::map`. -/
inductive Json where
  | null
  | unsigned (n : Nat)
  | string (s : String)
  | array (items : List Json)
  | object (members : List (String × Json))

/-- What `json.loads` returns. A floating number is the rational that it is. -/
inductive PyObject where
  | none
  | bool (b : Bool)
  | int (n : Int)
  | float (x : ℚ)
  | str (s : String)
  | list (items : List PyObject)
  | dict (members : List (String × PyObject))

inductive PyError where
  | decodeError
  | typeError
  | keyError
  | indexError
  | valueError
  | zeroDivisionError
  | assertionError
  deriving DecidableEq

namespace PyObject

/-- `d[key] = value` on a dictionary, which keeps the place of a key that it has. -/
def assign (members : List (String × PyObject)) (key : String) (value : PyObject) :
    List (String × PyObject) :=
  match members with
  | [] => [(key, value)]
  | (other, old) :: members =>
    if other = key then (key, value) :: members else (other, old) :: assign members key value

def dictOf (pairs : List (String × PyObject)) : List (String × PyObject) :=
  pairs.foldl (fun members pair => assign members pair.1 pair.2) []

def get (key : String) : PyObject → Except PyError PyObject
  | dict members => pure ((members.lookup key).getD none)
  | _ => throw .typeError

def getItem (key : String) : PyObject → Except PyError PyObject
  | dict members => (members.lookup key).elim (throw .keyError) pure
  | _ => throw .typeError

end PyObject

namespace Json

def get? (key : String) : Json → Option Json
  | object members => members.lookup key
  | _ => .none

def insert (members : List (String × Json)) (key : String) (value : Json) :
    List (String × Json) :=
  match members with
  | [] => [(key, value)]
  | (other, old) :: members =>
    if key < other then (key, value) :: (other, old) :: members
    else if key = other then (key, value) :: members
    else (other, old) :: insert members key value

/-- `j[key] = value`, where null becomes an object. -/
def set (j : Json) (key : String) (value : Json) : Json :=
  match j with
  | object members => object (insert members key value)
  | null => object (insert [] key value)
  | j => j

def setAll (j : Json) (fields : List (String × Json)) : Json :=
  fields.foldl (fun j field => j.set field.1 field.2) j

/-- `j.push_back(value)`, where null becomes an array. -/
def push_back (j : Json) (value : Json) : Json :=
  match j with
  | array items => array (items ++ [value])
  | null => array [value]
  | j => j

/-- `j[key].push_back(value)` and the like. -/
def modify (j : Json) (key : String) (change : Json → Json) : Json :=
  j.set key (change ((j.get? key).getD null))

section Write

def hexDigit (n : Nat) : Char := Nat.digitChar (n % 16)

def escape (c : Char) : List Char :=
  if c = '"' then ['\\', '"']
  else if c = '\\' then ['\\', '\\']
  else if c = '\x08' then ['\\', 'b']
  else if c = '\x0c' then ['\\', 'f']
  else if c = '\n' then ['\\', 'n']
  else if c = '\x0d' then ['\\', 'r']
  else if c = '\t' then ['\\', 't']
  else if c.toNat < 32 then ['\\', 'u', '0', '0', hexDigit (c.toNat / 16), hexDigit c.toNat]
  else [c]

def quote (s : String) : List Char := '"' :: (s.toList.flatMap escape ++ ['"'])

mutual

def dump : Json → List Char
  | null => ['n', 'u', 'l', 'l']
  | unsigned n => Nat.toDigits 10 n
  | string s => quote s
  | array [] => ['[', ']']
  | array (item :: items) => '[' :: (dump item ++ dumpItems items)
  | object [] => ['{', '}']
  | object ((key, value) :: members) =>
    '{' :: (quote key ++ ':' :: (dump value ++ dumpMembers members))

def dumpItems : List Json → List Char
  | [] => [']']
  | item :: items => ',' :: (dump item ++ dumpItems items)

def dumpMembers : List (String × Json) → List Char
  | [] => ['}']
  | (key, value) :: members => ',' :: (quote key ++ ':' :: (dump value ++ dumpMembers members))

end

end Write

end Json

namespace PyObject

section Read

def isSpace (c : Char) : Bool := c = ' ' || c = '\t' || c = '\n' || c = '\x0d'

def skipSpaces (text : List Char) : List Char := text.dropWhile isSpace

def hexValue (c : Char) : Option Nat :=
  if '0' ≤ c ∧ c ≤ '9' then some (c.toNat - '0'.toNat)
  else if 'a' ≤ c ∧ c ≤ 'f' then some (c.toNat - 'a'.toNat + 10)
  else if 'A' ≤ c ∧ c ≤ 'F' then some (c.toNat - 'A'.toNat + 10)
  else .none

def unescape (c : Char) : Option Char :=
  if c = '"' ∨ c = '\\' ∨ c = '/' then some c
  else if c = 'b' then some '\x08'
  else if c = 'f' then some '\x0c'
  else if c = 'n' then some '\n'
  else if c = 'r' then some '\x0d'
  else if c = 't' then some '\t'
  else .none

def character (code : Nat) : Option Char :=
  if valid : code.isValidChar then some (Char.ofNatAux code valid) else .none

def readString : List Char → Option (List Char × List Char)
  | [] => .none
  | '"' :: rest => some ([], rest)
  | '\\' :: 'u' :: a :: b :: c :: d :: rest => do
    let code := 16 * (16 * (16 * (← hexValue a) + (← hexValue b)) + (← hexValue c)) + (← hexValue d)
    let (s, rest) ← readString rest
    some ((← character code) :: s, rest)
  | '\\' :: c :: rest => do
    let (s, rest) ← readString rest
    some ((← unescape c) :: s, rest)
  | c :: rest => do
    let (s, rest) ← readString rest
    if c.toNat < 32 then .none else some (c :: s, rest)

def readFraction (text : List Char) : Option (List Char) × List Char :=
  match text with
  | '.' :: rest =>
    let (digits, rest) := rest.span Char.isDigit
    if digits = [] then (.none, text) else (some digits, rest)
  | _ => (.none, text)

def readExponentSign : List Char → Bool × List Char
  | '-' :: rest => (true, rest)
  | '+' :: rest => (false, rest)
  | rest => (false, rest)

def readExponent (text : List Char) : Option Int × List Char :=
  match text with
  | [] => (.none, text)
  | e :: rest =>
    if e = 'e' ∨ e = 'E' then
      let (negative, rest) := readExponentSign rest
      let (digits, rest) := rest.span Char.isDigit
      if digits = [] then (.none, text)
      else
        let exponent : Int := Nat.ofDigitChars 10 digits 0
        (some (if negative then -exponent else exponent), rest)
    else (.none, text)

def readSign : List Char → Bool × List Char
  | '-' :: rest => (true, rest)
  | rest => (false, rest)

def readWhole : List Char → List Char × List Char
  | '0' :: rest => (['0'], rest)
  | rest => rest.span Char.isDigit

def readNumber (text : List Char) : Option (PyObject × List Char) :=
  let (negative, rest) := readSign text
  let (whole, rest) := readWhole rest
  if whole = [] then .none
  else
    let n : Int := Nat.ofDigitChars 10 whole 0
    let (fraction, rest) := readFraction rest
    let (exponent, rest) := readExponent rest
    if fraction = .none ∧ exponent = .none then some (int (if negative then -n else n), rest)
    else
      let digits := fraction.getD []
      let significand : ℚ := n + Nat.ofDigitChars 10 digits 0 / 10 ^ digits.length
      let x := significand * 10 ^ exponent.getD 0
      some (float (Binary64.round (if negative then -x else x)), rest)

mutual

def readValue : Nat → List Char → Option (PyObject × List Char)
  | 0, _ => .none
  | fuel + 1, text =>
    match text with
    | '"' :: rest => do
      let (s, rest) ← readString rest
      some (str (String.ofList s), rest)
    | '[' :: rest =>
      match skipSpaces rest with
      | ']' :: rest => some (list [], rest)
      | rest => do
        let (item, rest) ← readValue fuel rest
        let (items, rest) ← readItems fuel rest
        some (list (item :: items), rest)
    | '{' :: rest =>
      match skipSpaces rest with
      | '}' :: rest => some (dict [], rest)
      | rest => do
        let (member, rest) ← readMember fuel rest
        let (members, rest) ← readMembers fuel rest
        some (dict (dictOf (member :: members)), rest)
    | 'n' :: 'u' :: 'l' :: 'l' :: rest => some (.none, rest)
    | 't' :: 'r' :: 'u' :: 'e' :: rest => some (bool true, rest)
    | 'f' :: 'a' :: 'l' :: 's' :: 'e' :: rest => some (bool false, rest)
    | text => readNumber text

def readItems : Nat → List Char → Option (List PyObject × List Char)
  | 0, _ => .none
  | fuel + 1, text =>
    match skipSpaces text with
    | ']' :: rest => some ([], rest)
    | ',' :: rest => do
      let (item, rest) ← readValue fuel (skipSpaces rest)
      let (items, rest) ← readItems fuel rest
      some (item :: items, rest)
    | _ => .none

def readMember : Nat → List Char → Option ((String × PyObject) × List Char)
  | 0, _ => .none
  | fuel + 1, text =>
    match text with
    | '"' :: rest => do
      let (key, rest) ← readString rest
      match skipSpaces rest with
      | ':' :: rest => do
        let (value, rest) ← readValue fuel (skipSpaces rest)
        some ((String.ofList key, value), rest)
      | _ => .none
    | _ => .none

def readMembers : Nat → List Char → Option (List (String × PyObject) × List Char)
  | 0, _ => .none
  | fuel + 1, text =>
    match skipSpaces text with
    | '}' :: rest => some ([], rest)
    | ',' :: rest => do
      let (member, rest) ← readMember fuel (skipSpaces rest)
      let (members, rest) ← readMembers fuel rest
      some (member :: members, rest)
    | _ => .none

end

/-- `json.loads`, without the constants for infinity and not-a-number and without
surrogate pairs. -/
def loads (text : List Char) : Except PyError PyObject :=
  match readValue (text.length + 1) (skipSpaces text) with
  | some (value, rest) => if skipSpaces rest = [] then pure value else throw .decodeError
  | .none => throw .decodeError

end Read

section Numbers

def decimal (text : List Char) : Option ℚ :=
  let (negative, rest) := readSign text
  let (whole, rest) := rest.span Char.isDigit
  let (fraction, rest) := readFraction rest
  let (exponent, rest) := readExponent rest
  let digits := fraction.getD []
  if (whole = [] ∧ digits = []) ∨ rest ≠ [] then .none
  else
    let significand : ℚ :=
      Nat.ofDigitChars 10 whole 0 + Nat.ofDigitChars 10 digits 0 / 10 ^ digits.length
    let x := significand * 10 ^ exponent.getD 0
    some (if negative then -x else x)

/-- `float(...)`; of the spellings in a string the decimal ones. -/
def toFloat : PyObject → Except PyError ℚ
  | int n => pure (Binary64.round n)
  | float x => pure x
  | bool b => pure (if b then 1 else 0)
  | str s => (decimal s.toList).elim (throw .valueError) fun x => pure (Binary64.round x)
  | _ => throw .typeError

end Numbers

end PyObject

end NeuroMerge
