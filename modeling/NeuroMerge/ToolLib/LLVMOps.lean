import Mathlib.Algebra.Ring.Nat
import Mathlib.Algebra.Ring.Int.Defs
import Mathlib.Data.List.Basic

/-!
# Names of functions, basic blocks and instructions

`LLVMOps.cpp`: "strID: Path-NameFunction-NoBB-NoInst". A string is the list of its
characters.
-/

namespace NeuroMerge.ToolLib

/-- A basic block, at its address, with the addresses of its instructions. -/
structure BasicBlock where
  address : Nat
  instructions : List Nat
  distinct : instructions.Nodup
  deriving DecidableEq

/-- A function with the path that `get_file_name` finds. A function without a name has the
empty one. -/
structure Function where
  path : List Char
  name : List Char
  blocks : List BasicBlock
  distinct : blocks.Nodup
  deriving DecidableEq

/-- The symbol table makes names unique. -/
structure Module where
  functions : List Function
  symbols : functions.Pairwise fun f g => f.name = g.name → f.name = []

def Module.getFunction (m : Module) (name : List Char) : Option Function :=
  if name = [] then none else m.functions.find? fun f => f.name = name

inductive Fault where
  /-- `std::invalid_argument` -/
  | invalidArgument
  /-- `std::out_of_range` -/
  | outOfRange
  /-- A pointer that was never set is returned. -/
  | indeterminate
  deriving DecidableEq, Repr

/-! ## Writing -/

def function_to_strID (f : Function) : List Char := f.path ++ '-' :: f.name

/-- The number of a block is that of the blocks before it. -/
def basicblock_to_strID (f : Function) (b : BasicBlock) : List Char :=
  function_to_strID f ++ '-' :: Nat.toDigits 10 (f.blocks.idxOf b)

def inst_to_strID (f : Function) (b : BasicBlock) (inst : Nat) : List Char :=
  basicblock_to_strID f b ++ '-' :: Nat.toDigits 10 (b.instructions.idxOf inst)

/-! ## Reading -/

def isSpace (c : Char) : Bool := c ∈ [' ', '\t', '\n', '\x0b', '\x0c', '\x0d']

/-- Whether there is a minus sign, and what stands behind the sign. -/
def sign : List Char → Bool × List Char
  | '-' :: text => (true, text)
  | '+' :: text => (false, text)
  | text => (false, text)

def stoi (text : List Char) : Except Fault Int :=
  let (negative, text) := sign (text.dropWhile isSpace)
  let digits := text.takeWhile Char.isDigit
  if digits = [] then throw .invalidArgument
  else
    let n : Int := Nat.ofDigitChars 10 digits 0
    let n := if negative then -n else n
    if n < -2 ^ 31 ∨ 2 ^ 31 ≤ n then throw .outOfRange else pure n

def find (str : List Char) (pos : Nat) : Option Nat :=
  ((str.drop pos).findIdx? (· = '-')).map (pos + ·)

/-- `start + 1`, which wraps around to zero behind `npos`. -/
def next (start : Option Nat) : Nat := start.elim 0 (· + 1)

def part (str : List Char) (start : Option Nat) : List Char :=
  let pos := next start
  match find str pos with
  | some last => (str.drop pos).take (last - pos)
  | none => str.drop pos

/-- The element that a loop which counts down to zero stops at. -/
def countDown {α : Type} (items : List α) (no : Int) : Option α :=
  if no < 0 then none else items[no.toNat]?

def strID_to_function (m : Module) (str : List Char) : Option Function :=
  let start := find str 0
  if start = some str.length then none else m.getFunction (part str start)

def strID_to_basicblock (m : Module) (str : List Char) : Except Fault (Option BasicBlock) :=
  match strID_to_function m str with
  | none => pure none
  | some f => do
    let start := find str 0
    let start := find str (next start)
    if start = some str.length then pure none
    else
      let no ← stoi (part str start)
      pure (countDown f.blocks no)

def strID_to_inst (m : Module) (str : List Char) : Except Fault (Option Nat) := do
  match ← strID_to_basicblock m str with
  | none => pure none
  | some b =>
    let start := find str 0
    let start := find str (next start)
    let start := find str (next start)
    if start = some str.length then pure none
    else
      let no ← stoi (part str start)
      match countDown b.instructions no with
      | some inst => pure (some inst)
      | none => throw .indeterminate

/-! ## Named basic blocks -/

/-- The control flow between the blocks of a function. The predecessors of a block are found
among its users. -/
structure ControlFlow (f : Function) where
  name : BasicBlock → List Char
  successors : BasicBlock → List BasicBlock
  predecessors : BasicBlock → List BasicBlock
  inside : ∀ b ∈ f.blocks, successors b ⊆ f.blocks
  users : ∀ b pred, pred ∈ predecessors b ↔ pred ∈ f.blocks ∧ b ∈ successors pred

def ControlFlow.hasName {f : Function} (cfg : ControlFlow f) (b : BasicBlock) : Bool :=
  cfg.name b ≠ []

inductive ChainFault where
  | exhausted
  /-- The block that is returned was never set. -/
  | indeterminate

def get_real_basic_block {f : Function} (cfg : ControlFlow f) :
    Nat → BasicBlock → Except ChainFault BasicBlock
  | 0, _ => throw .exhausted
  | fuel + 1, b =>
    if cfg.hasName b then pure b
    else
      match cfg.predecessors b with
      | [] => throw .indeterminate
      | pred :: _ => get_real_basic_block cfg fuel pred

def get_final_basic_block {f : Function} (cfg : ControlFlow f) :
    Nat → BasicBlock → Except ChainFault BasicBlock
  | 0, _ => throw .exhausted
  | fuel + 1, b =>
    match (cfg.successors b).find? fun succ => !cfg.hasName succ with
    | some succ => get_final_basic_block cfg fuel succ
    | none => pure b

end NeuroMerge.ToolLib
