import NeuroMerge.Foundations.Moves

/-!
# PHI nodes

The control flow of a function with its PHI nodes, the pass that cleans them up,
and their execution: as LLVM has it, and as the interpreter does it. Types are
left out.
-/

namespace NeuroMerge.Module

variable {V M : Type}

/-- An operand: a constant, or the register of an argument or of an instruction. -/
inductive Value (V : Type) where
  | constant (value : V)
  | register (id : Nat)

structure PHINode (V : Type) where
  id : Nat
  incoming : List (Nat × Value V)

namespace PHINode

def blocks (phi : PHINode V) : List Nat := phi.incoming.map Prod.fst

/-- None is `-1`. -/
def getBasicBlockIndex (phi : PHINode V) (block : Nat) : Option Nat :=
  phi.blocks.findIdx? fun incoming => incoming = block

def getIncomingValueForBlock (phi : PHINode V) (block : Nat) : Option (Value V) :=
  (phi.incoming.find? fun incoming => incoming.1 = block).map Prod.snd

end PHINode

/-- Of the instructions other than PHI nodes only the casts that the pass makes matter. -/
inductive Instruction (V M : Type) where
  | bitCast (id : Nat) (value : Value V)
  | other (id : Option Nat) (operands : List (Value V)) (compute : List V → M → V × M)

/-- The terminator, which is not in `body`, goes to the successor with the number that it
computes, or leaves the function. -/
structure BasicBlock (V M : Type) where
  name : Nat
  phis : List (PHINode V)
  body : List (Instruction V M)
  operands : List (Value V)
  successors : List Nat
  branch : List V → M → Option Nat

/-- `next` is where the registers begin that are not used. -/
structure Function (V M : Type) where
  blocks : List (BasicBlock V M)
  next : Nat

def Function.block? (f : Function V M) (name : Nat) : Option (BasicBlock V M) :=
  f.blocks.find? fun b => b.name = name

section PhiCleaner

structure Copy (V : Type) where
  block : Nat
  id : Nat
  value : Value V

structure Cleaning (V : Type) where
  next : Nat
  copies : List (Copy V)
  changed : Bool

def Value.isAmong (phis : List Nat) : Value V → Bool
  | .constant _ => false
  | .register id => phis.contains id

def PHINode.reorder (reference pi : PHINode V) : Option (PHINode V × Bool) :=
  if pi.blocks = reference.blocks then some (pi, false)
  else do
    let values ← reference.blocks.mapM pi.getIncomingValueForBlock
    some ({ pi with incoming := reference.blocks.zip values }, true)

/-- A value that an earlier node defines is copied at the end of the incoming block. -/
def copyIncoming (phis : List Nat) :
    Cleaning V → List (Nat × Value V) → Cleaning V × List (Nat × Value V)
  | s, [] => (s, [])
  | s, (block, value) :: incoming =>
    if value.isAmong phis then
      let tmp := s.next
      let (s, incoming) := copyIncoming phis
        { next := tmp + 1
          copies := s.copies ++ [⟨block, tmp, value⟩]
          changed := true } incoming
      (s, (block, .register tmp) :: incoming)
    else
      let (s, incoming) := copyIncoming phis { s with changed := true } incoming
      (s, (block, value) :: incoming)

/-- The nodes after the reference; `phis` are those before. -/
def cleanPhis (reference : PHINode V) :
    List Nat → Cleaning V → List (PHINode V) → Option (Cleaning V × List (PHINode V))
  | _, s, [] => some (s, [])
  | phis, s, pi :: rest =>
    if reference.incoming.length = pi.incoming.length then do
      let (pi, reordered) ← reference.reorder pi
      let (s, incoming) :=
        copyIncoming phis { s with changed := s.changed || reordered } pi.incoming
      let (s, rest) ← cleanPhis reference (phis ++ [pi.id]) s rest
      some (s, { pi with incoming := incoming } :: rest)
    else none

def cleanBlock (s : Cleaning V) (b : BasicBlock V M) : Option (Cleaning V × BasicBlock V M) :=
  match b.phis with
  | [] => some (s, b)
  | reference :: rest => do
    let (s, rest) ← cleanPhis reference [reference.id] s rest
    some (s, { b with phis := reference :: rest })

def cleanBlocks : Cleaning V → List (BasicBlock V M) → Option (Cleaning V × List (BasicBlock V M))
  | s, [] => some (s, [])
  | s, b :: blocks => do
    let (s, b) ← cleanBlock s b
    let (s, blocks) ← cleanBlocks s blocks
    some (s, b :: blocks)

/-- Each copy is inserted before the terminator, behind the earlier ones. -/
def BasicBlock.withCopies (copies : List (Copy V)) (b : BasicBlock V M) : BasicBlock V M :=
  { b with
    body := b.body ++
      (copies.filter fun copy => copy.block = b.name).map fun copy =>
        .bitCast copy.id copy.value }

def runOnFunction (f : Function V M) : Option (Bool × Function V M) := do
  let (s, blocks) ← cleanBlocks ⟨f.next, [], false⟩ f.blocks
  some (s.changed, ⟨blocks.map (BasicBlock.withCopies s.copies), s.next⟩)

end PhiCleaner

section Execution

def Value.eval (locals : Nat → V) : Value V → V
  | .constant value => value
  | .register id => locals id

/-- `memory` is everything but the registers and the position. -/
structure State (V M : Type) where
  block : Nat
  incomingBBIndex : Option Nat
  locals : Nat → V
  memory : M

def Instruction.execute (s : State V M) : Instruction V M → State V M
  | .bitCast id value => { s with locals := Function.update s.locals id (value.eval s.locals) }
  | .other id operands compute =>
    let (result, memory) := compute (operands.map (Value.eval s.locals)) s.memory
    match id with
    | some id => { s with locals := Function.update s.locals id result, memory := memory }
    | none => { s with memory := memory }

def transferToBasicBlock (dst : BasicBlock V M) (src : Nat) (s : State V M) : State V M :=
  let s := { s with block := dst.name }
  match dst.phis with
  | [] => s
  | first :: _ => { s with incomingBBIndex := first.getBasicBlockIndex src }

/-- The interpreter evaluates the operand with the incoming index. -/
def executePhi (s : State V M) (phi : PHINode V) : Option (State V M) := do
  let index ← s.incomingBBIndex
  let (_, value) ← phi.incoming[index]?
  some { s with locals := Function.update s.locals phi.id (value.eval s.locals) }

def enter (dst : BasicBlock V M) (src : Nat) (s : State V M) : Option (State V M) :=
  dst.phis.foldlM executePhi (transferToBasicBlock dst src s)

def incomingMoves (phis : List (PHINode V)) (src : Nat) : Option (List (Move Nat V)) :=
  phis.mapM fun phi => do
    let value ← phi.getIncomingValueForBlock src
    some ⟨phi.id, fun locals => value.eval locals⟩

/-- How LLVM has it: all nodes take their values at once. -/
def enterSimultaneously (dst : BasicBlock V M) (src : Nat) (s : State V M) :
    Option (State V M) := do
  let moves ← incomingMoves dst.phis src
  some { s with block := dst.name, locals := Move.simultaneous s.locals moves }

/-- From the beginning of a block, behind its PHI nodes, to that of the next one. -/
def step (f : Function V M)
    (enter : BasicBlock V M → Nat → State V M → Option (State V M)) (s : State V M) :
    Option (State V M) := do
  let b ← f.block? s.block
  let s := b.body.foldl Instruction.execute s
  let number ← b.branch (b.operands.map (Value.eval s.locals)) s.memory
  let successor ← b.successors[number]?
  let dst ← f.block? successor
  enter dst b.name s

def run (f : Function V M) (enter : BasicBlock V M → Nat → State V M → Option (State V M)) :
    Nat → State V M → Option (State V M)
  | 0, s => some s
  | n + 1, s => step f enter s >>= run f enter n

end Execution

end NeuroMerge.Module
