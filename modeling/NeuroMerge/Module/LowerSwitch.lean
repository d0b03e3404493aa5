import NeuroMerge.Module.PhiCleaner

/-!
# Lowering switches

The pass that turns a switch into a chain of comparisons, on functions whose terminators
are told apart, and what these functions do.
-/

namespace NeuroMerge.Module

variable {V M : Type}

def PHINode.setIncomingBlock (phi : PHINode V) (index block : Nat) : PHINode V :=
  { phi with incoming := phi.incoming.modify index fun entry => (block, entry.2) }

namespace LowerSwitch

structure Booleans (V : Type) where
  ofBool : Bool → V
  isTrue : V → Bool
  isTrue_ofBool : ∀ bit, isTrue (ofBool bit) = bit

inductive Terminator (V M : Type) where
  | switch (condition : Value V) (cases : List (V × Nat)) (defaultDest : Nat)
  | br (dest : Nat)
  | condBr (condition : Value V) (ifTrue ifFalse : Nat)
  | other (operands : List (Value V)) (successors : List Nat) (branch : List V → M → Option Nat)

def Terminator.successors : Terminator V M → List Nat
  | .switch _ cases defaultDest => defaultDest :: cases.map Prod.snd
  | .br dest => [dest]
  | .condBr _ ifTrue ifFalse => [ifTrue, ifFalse]
  | .other _ successors _ => successors

structure BasicBlock (V M : Type) where
  name : Nat
  phis : List (PHINode V)
  body : List (Instruction V M)
  terminator : Terminator V M

/-- `next` is where the registers begin that are not used, and `nextBlock` the names. -/
structure Function (V M : Type) where
  blocks : List (BasicBlock V M)
  next : Nat
  nextBlock : Nat

def Function.block? (f : Function V M) (name : Nat) : Option (BasicBlock V M) :=
  f.blocks.find? fun b => b.name = name

def insertBefore (block : BasicBlock V M) (position : Nat) :
    List (BasicBlock V M) → List (BasicBlock V M)
  | [] => [block]
  | b :: blocks =>
    if b.name = position then block :: b :: blocks
    else b :: insertBefore block position blocks

def insertAfter (block : BasicBlock V M) (position : Nat) :
    List (BasicBlock V M) → List (BasicBlock V M)
  | [] => [block]
  | b :: blocks =>
    if b.name = position then b :: block :: blocks
    else b :: insertAfter block position blocks

section Pass

/-- One entry of each PHI node of the block comes from the new block; none if the assertion
fails that there is an entry. -/
def rewriteIncoming (origBlock newBlock : Nat) (b : BasicBlock V M) :
    Option (BasicBlock V M) := do
  let phis ← b.phis.mapM fun phi => do
    let index ← phi.getBasicBlockIndex origBlock
    some (phi.setIncomingBlock index newBlock)
  some { b with phis }

def Function.rewriteIncoming (f : Function V M) (block origBlock newBlock : Nat) :
    Option (Function V M) := do
  let blocks ← f.blocks.mapM fun b =>
    if b.name = block then LowerSwitch.rewriteIncoming origBlock newBlock b else some b
  some { f with blocks }

def Function.setTerminator (f : Function V M) (block : Nat) (terminator : Terminator V M) :
    Function V M :=
  { f with
    blocks := f.blocks.map fun b => if b.name = block then { b with terminator } else b }

variable [DecidableEq V] (booleans : Booleans V)

def createICmpEQ (id : Nat) (value : Value V) (constant : V) : Instruction V M :=
  .other (some id) [value, .constant constant] fun operands memory =>
    (booleans.ofBool (operands[0]? = operands[1]?), memory)

/-- The loop over the cases; it returns the head of the chain. The branch to it at the end
of the original block is set with the removal of the switch. -/
def switchConvert (value : Value V) (origBlock : Nat) :
    List (V × Nat) → Nat → Function V M → Option (Nat × Function V M)
  | [], curHead, f => some (curHead, f)
  | it :: cases, curHead, f => do
    let newBlock := f.nextBlock
    let node : BasicBlock V M :=
      { name := newBlock
        phis := []
        body := [createICmpEQ booleans f.next value it.1]
        terminator := .condBr (.register f.next) it.2 curHead }
    let f : Function V M :=
      { blocks := insertAfter node origBlock f.blocks
        next := f.next + 1
        nextBlock := newBlock + 1 }
    let f ← f.rewriteIncoming it.2 origBlock newBlock
    switchConvert value origBlock cases newBlock f

def processSwitchInst (f : Function V M) (origBlock : Nat) (condition : Value V)
    (cases : List (V × Nat)) (defaultDest : Nat) : Option (Function V M) := do
  let newDefault := f.nextBlock
  let f := { f with
    blocks := insertBefore ⟨newDefault, [], [], .br defaultDest⟩ defaultDest f.blocks
    nextBlock := newDefault + 1 }
  let f ← f.rewriteIncoming defaultDest origBlock newDefault
  let (curHead, f) ← switchConvert booleans condition origBlock cases.reverse newDefault f
  some (f.setTerminator origBlock (.br curHead))

def processBlock (changed : Bool) (f : Function V M) (cur : Nat) :
    Option (Bool × Function V M) :=
  match (f.block? cur).map BasicBlock.terminator with
  | some (.switch condition cases defaultDest) => do
    let f ← processSwitchInst booleans f cur condition cases defaultDest
    some (true, f)
  | _ => some (changed, f)

/-- The loop goes over the blocks that there were before the pass; none of those it makes
ends with a switch. -/
def runOnFunction (f : Function V M) : Option (Bool × Function V M) :=
  (f.blocks.map BasicBlock.name).foldlM
    (fun (changed, f) cur => processBlock booleans changed f cur) (false, f)

end Pass

section Execution

variable [DecidableEq V] (booleans : Booleans V)

def Terminator.target (s : State V M) : Terminator V M → Option Nat
  | .switch condition cases defaultDest =>
    some ((cases.lookup (condition.eval s.locals)).getD defaultDest)
  | .br dest => some dest
  | .condBr condition ifTrue ifFalse =>
    some (if booleans.isTrue (condition.eval s.locals) then ifTrue else ifFalse)
  | .other operands successors branch => do
    let number ← branch (operands.map (Value.eval s.locals)) s.memory
    successors[number]?

/-- From the beginning of a block, behind its PHI nodes, to that of the next one. All PHI
nodes take their values at once. -/
def step (f : Function V M) (s : State V M) : Option (State V M) := do
  let b ← f.block? s.block
  let s := b.body.foldl Instruction.execute s
  let target ← b.terminator.target booleans s
  let dst ← f.block? target
  let moves ← incomingMoves dst.phis b.name
  some { s with block := dst.name, locals := Move.simultaneous s.locals moves }

end Execution

end LowerSwitch

end NeuroMerge.Module
