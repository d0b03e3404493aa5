import Mathlib.Tactic.Common

/-!
# Bit vector terms

Terms over booleans, bit vectors and arrays of bit vectors, as solvers take them.
A term that is not well sorted has no value.
-/

namespace NeuroMerge.BitVectorTerm

inductive Value where
  | bool (value : Bool)
  | bits (width : Nat) (value : BitVec width)
  deriving DecidableEq

structure ArrayValue where
  domain : Nat
  range : Nat
  contents : BitVec domain → BitVec range

inductive Connective where
  | and | or | iff
  deriving DecidableEq, Repr

inductive Arithmetic where
  | and | or | xor | add | sub | mul | udiv | sdiv | urem | srem
  deriving DecidableEq, Repr

inductive Comparison where
  | eq | ult | ule | slt | sle
  deriving DecidableEq, Repr

@[simp] def Connective.apply : Connective → Bool → Bool → Bool
  | .and, a, b => a && b
  | .or, a, b => a || b
  | .iff, a, b => a == b

/-- The value of a division by zero is that of the SMT-LIB theory. -/
@[simp] def Arithmetic.apply {w : Nat} : Arithmetic → BitVec w → BitVec w → BitVec w
  | .and, a, b => a &&& b
  | .or, a, b => a ||| b
  | .xor, a, b => a ^^^ b
  | .add, a, b => a + b
  | .sub, a, b => a - b
  | .mul, a, b => a * b
  | .udiv, a, b => a.smtUDiv b
  | .sdiv, a, b => a.smtSDiv b
  | .urem, a, b => a.umod b
  | .srem, a, b => a.srem b

@[simp] def Comparison.apply {w : Nat} : Comparison → BitVec w → BitVec w → Bool
  | .eq, a, b => a == b
  | .ult, a, b => a.ult b
  | .ule, a, b => a.ule b
  | .slt, a, b => a.slt b
  | .sle, a, b => a.sle b

mutual

/-- A constant is taken modulo its width, and a sign extension has the width of its result. -/
inductive Term (ν : Type) where
  | bool (value : Bool)
  | const (width value : Nat)
  | not (term : Term ν)
  | connect (op : Connective) (left right : Term ν)
  | ite (cond whenTrue whenFalse : Term ν)
  | bvnot (term : Term ν)
  | bvneg (term : Term ν)
  | arith (op : Arithmetic) (left right : Term ν)
  | compare (op : Comparison) (left right : Term ν)
  | concat (left right : Term ν)
  | extract (high low : Nat) (term : Term ν)
  | signExtend (width : Nat) (term : Term ν)
  | select (array : ArrayTerm ν) (index : Term ν)

inductive ArrayTerm (ν : Type) where
  | var (name : ν) (domain range : Nat)
  | store (array : ArrayTerm ν) (index value : Term ν)

end

abbrev Environment (ν : Type) := ν → (domain range : Nat) → BitVec domain → BitVec range

namespace Value

def not : Value → Option Value
  | bool value => some (bool (!value))
  | bits _ _ => none

def connect (op : Connective) : Value → Value → Option Value
  | bool left, bool right => some (bool (op.apply left right))
  | _, _ => none

def ite : Value → Value → Value → Option Value
  | bool cond, bool whenTrue, bool whenFalse =>
    some (bool (if cond then whenTrue else whenFalse))
  | bool cond, bits width whenTrue, bits other whenFalse =>
    if same : other = width then
      some (bits width (if cond then whenTrue else whenFalse.cast same))
    else none
  | _, _, _ => none

def map (op : (width : Nat) → BitVec width → BitVec width) : Value → Option Value
  | bool _ => none
  | bits width value => some (bits width (op width value))

def arith (op : Arithmetic) : Value → Value → Option Value
  | bits width left, bits other right =>
    if same : other = width then some (bits width (op.apply left (right.cast same))) else none
  | _, _ => none

def compare (op : Comparison) : Value → Value → Option Value
  | bits width left, bits other right =>
    if same : other = width then some (bool (op.apply left (right.cast same))) else none
  | _, _ => none

def concat : Value → Value → Option Value
  | bits width left, bits other right => some (bits (width + other) (left ++ right))
  | _, _ => none

def extract (high low : Nat) : Value → Option Value
  | bits width value =>
    if low ≤ high ∧ high < width then
      some (bits (high - low + 1) (value.extractLsb' low (high - low + 1)))
    else none
  | bool _ => none

def signExtend (target : Nat) : Value → Option Value
  | bits width value => if width ≤ target then some (bits target (value.signExtend target)) else none
  | bool _ => none

def select (array : ArrayValue) : Value → Option Value
  | bits width index =>
    if same : width = array.domain then
      some (bits array.range (array.contents (index.cast same)))
    else none
  | bool _ => none

def store (array : ArrayValue) : Value → Value → Option ArrayValue
  | bits domain index, bits range value =>
    if sameDomain : domain = array.domain then
      if sameRange : range = array.range then
        some { array with
          contents := fun position =>
            if index.cast sameDomain = position then value.cast sameRange
            else array.contents position }
      else none
    else none
  | _, _ => none

end Value

mutual

def Term.eval {ν : Type} (env : Environment ν) : Term ν → Option Value
  | .bool value => some (.bool value)
  | .const width value => some (.bits width (BitVec.ofNat width value))
  | .not term => do (← term.eval env).not
  | .connect op left right => do Value.connect op (← left.eval env) (← right.eval env)
  | .ite cond whenTrue whenFalse => do
    Value.ite (← cond.eval env) (← whenTrue.eval env) (← whenFalse.eval env)
  | .bvnot term => do Value.map (fun _ value => ~~~ value) (← term.eval env)
  | .bvneg term => do Value.map (fun _ value => - value) (← term.eval env)
  | .arith op left right => do Value.arith op (← left.eval env) (← right.eval env)
  | .compare op left right => do Value.compare op (← left.eval env) (← right.eval env)
  | .concat left right => do Value.concat (← left.eval env) (← right.eval env)
  | .extract high low term => do Value.extract high low (← term.eval env)
  | .signExtend width term => do Value.signExtend width (← term.eval env)
  | .select array index => do Value.select (← array.eval env) (← index.eval env)

def ArrayTerm.eval {ν : Type} (env : Environment ν) : ArrayTerm ν → Option ArrayValue
  | .var name domain range => some ⟨domain, range, env name domain range⟩
  | .store array index value => do
    Value.store (← array.eval env) (← index.eval env) (← value.eval env)

end

attribute [simp] Term.eval ArrayTerm.eval

mutual

def Term.length {ν : Type} : Term ν → Nat
  | .bool _ | .not _ | .connect _ _ _ | .compare _ _ _ => 0
  | .const width _ => width
  | .ite _ whenTrue _ => whenTrue.length
  | .bvnot term | .bvneg term => term.length
  | .arith _ left _ => left.length
  | .concat left right => left.length + right.length
  | .extract high low _ => high - low + 1
  | .signExtend width _ => width
  | .select array _ => array.range

def ArrayTerm.range {ν : Type} : ArrayTerm ν → Nat
  | .var _ _ range => range
  | .store array _ _ => array.range

end

section Meaning

variable {ν : Type} {env : Environment ν} {w n : Nat} {s t c : Term ν}

def Decides (env : Environment ν) (t : Term ν) (value : Bool) : Prop :=
  t.eval env = some (.bool value)

structure Means (env : Environment ν) (t : Term ν) (value : BitVec w) : Prop where
  value : t.eval env = some (.bits w value)
  length : t.length = w

structure Contains (env : Environment ν) (t : ArrayTerm ν) {domain range : Nat}
    (contents : BitVec domain → BitVec range) : Prop where
  value : t.eval env = some ⟨domain, range, contents⟩
  range : t.range = range

variable {a b : Bool} {x y : BitVec w} {z : BitVec n}

theorem Decides.bool (value : Bool) : Decides env (.bool value) value := rfl

theorem Decides.not (decides : Decides env t a) : Decides env (.not t) (!a) := by
  rw [Decides, Term.eval, decides]
  rfl

theorem Decides.connect (op : Connective) (left : Decides env s a) (right : Decides env t b) :
    Decides env (.connect op s t) (op.apply a b) := by
  rw [Decides, Term.eval, left, right]
  rfl

theorem Decides.ite {d : Bool} (cond : Decides env c d) (whenTrue : Decides env s a)
    (whenFalse : Decides env t b) : Decides env (.ite c s t) (if d then a else b) := by
  rw [Decides, Term.eval, cond, whenTrue, whenFalse]
  rfl

theorem Decides.unique (first : Decides env t a) (second : Decides env t b) : a = b := by
  rw [Decides, first] at second
  exact Value.bool.inj (Option.some.inj second)

namespace Means

theorem of_eq (means : Means env t x) (same : x = y) : Means env t y := same ▸ means

theorem of_cast (means : Means env t x) (same : w = n) (value : x.cast same = z) : Means env t z := by
  subst same
  exact value ▸ means

theorem unique (first : Means env t x) (second : Means env t y) : x = y := by
  have same := first.value.symm.trans second.value
  simpa using same

theorem const (value : Nat) : Means env (.const w value) (BitVec.ofNat w value) := ⟨rfl, rfl⟩

theorem ite {d : Bool} (cond : Decides env c d) (whenTrue : Means env s x)
    (whenFalse : Means env t y) : Means env (.ite c s t) (if d then x else y) := by
  refine ⟨?_, whenTrue.length⟩
  rw [Term.eval, cond, whenTrue.value, whenFalse.value]
  simp [Value.ite]

theorem bvnot (means : Means env t x) : Means env (.bvnot t) (~~~ x) := by
  refine ⟨?_, means.length⟩
  rw [Term.eval, means.value]
  rfl

theorem bvneg (means : Means env t x) : Means env (.bvneg t) (- x) := by
  refine ⟨?_, means.length⟩
  rw [Term.eval, means.value]
  rfl

theorem arith (op : Arithmetic) (left : Means env s x) (right : Means env t y) : Means env (.arith op s t) (op.apply x y) := by
  refine ⟨?_, left.length⟩
  rw [Term.eval, left.value, right.value]
  simp [Value.arith]

theorem compare (op : Comparison) (left : Means env s x) (right : Means env t y) : Decides env (.compare op s t) (op.apply x y) := by
  rw [Decides, Term.eval, left.value, right.value]
  simp [Value.compare]

theorem concat (left : Means env s x) (right : Means env t z) : Means env (.concat s t) (x ++ z) := by
  refine ⟨?_, congrArg₂ (· + ·) left.length right.length⟩
  rw [Term.eval, left.value, right.value]
  rfl

theorem extract {high low : Nat} (means : Means env t x) (ordered : low ≤ high) (within : high < w) :
    Means env (.extract high low t) (x.extractLsb' low (high - low + 1)) := by
  refine ⟨?_, rfl⟩
  rw [Term.eval, means.value]
  simp [Value.extract, ordered, within]

theorem signExtend (means : Means env t x) (wider : w ≤ n) : Means env (.signExtend n t) (x.signExtend n) := by
  refine ⟨?_, rfl⟩
  rw [Term.eval, means.value]
  simp [Value.signExtend, wider]

theorem select {array : ArrayTerm ν} {range : Nat} {contents : BitVec w → BitVec range}
    (contains : Contains env array contents) (index : Means env t x) : Means env (.select array t) (contents x) := by
  refine ⟨?_, contains.range⟩
  rw [Term.eval, contains.value, index.value]
  simp [Value.select]

end Means

namespace Contains

variable {array : ArrayTerm ν}

theorem var (name : ν) (domain range : Nat) : Contains env (.var name domain range) (env name domain range) := ⟨rfl, rfl⟩

theorem store {contents : BitVec w → BitVec n} (contains : Contains env array contents) (index : Means env s x) (value : Means env t z) :
    Contains env (.store array s t) (fun position => if x = position then z else contents position) := by
  refine ⟨?_, contains.range⟩
  rw [ArrayTerm.eval, contains.value, index.value, value.value]
  simp [Value.store]

end Contains

end Meaning

end NeuroMerge.BitVectorTerm
