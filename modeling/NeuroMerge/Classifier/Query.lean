import NeuroMerge.Classifier.MergeRecord
import NeuroMerge.Execution.Merge

/-!
# Asking the classifier

`ExecutionState::preMerge` and `MergeHandler::merge_or_not`: what two states may
differ in is written into a document, which is sent to the server; the answer is
searched for a zero.
-/

namespace NeuroMerge.Classifier

open Execution (ExecutionState KFunction KInstIterator StackFrame)
open Memory (MemoryObject Ref)

variable {ι : Type}

structure KInstruction (ι : Type) where
  inst : ι
  dest : Nat

/-- `MemoryObject::allocSite`, as far as it is told apart. -/
inductive AllocSite (ι : Type) where
  | instruction (i : ι)
  | globalValue (name : String)
  | other

/-- The instructions of the module, which `inst_to_strID` names. -/
structure Program (ι : Type) where
  inst : KInstIterator → ι
  instructions : KFunction → List (KInstruction ι)
  allocSite : MemoryObject → AllocSite ι
  inst_to_strID : ι → String

/-- An execution state with what is recorded about it. -/
structure RecordedState (ι : Type) extends ExecutionState where
  path : List ι
  hash : Nat
  inputfile : String
  steppedInstructions : Nat
  instsSinceCovNew : Nat
  coveredNew : Bool

namespace RecordedState

variable (program : Program ι)

def canMerge (a b : RecordedState ι) : Bool :=
  a.pc = b.pc && a.symbolics = b.symbolics && ExecutionState.sameFrames a.stack b.stack &&
    (ExecutionState.mutatedObjects a.addressSpace.objects b.addressSpace.objects).isSome

def writers (kf : KFunction) (register : Nat) : List String :=
  ((program.instructions kf).filter fun ki => ki.dest = register).map fun ki =>
    program.inst_to_strID ki.inst

def frameVariables (af bf : StackFrame) : List String :=
  (List.range af.kf.numRegisters).flatMap fun i =>
    match af.locals i, bf.locals i with
    | some _, some _ => writers program af.kf i
    | _, _ => []

def localVariables (a b : RecordedState ι) : List String :=
  (a.stack.zip b.stack).flatMap fun (af, bf) => frameVariables program af bf

def mutated (a b : RecordedState ι) : List MemoryObject :=
  ((a.addressSpace.objects.zip b.addressSpace.objects).filter fun (ai, bi) => ai.2 ≠ bi.2).map
    fun (ai, _) => ai.1

/-- `json["Merged_variables"][kind].push_back(id)` -/
def pushVariable (kind : String) (json : Json) (id : String) : Json :=
  json.modify "Merged_variables" fun merged =>
    merged.modify kind fun ids => ids.push_back (.string id)

def pushObject (json : Json) (mo : MemoryObject) : Json :=
  match program.allocSite mo with
  | .instruction i => pushVariable "Global_memories" json (program.inst_to_strID i)
  | .globalValue name => pushVariable "Global_variables" json name
  | .other => json

/-- The number, filled up with zeros to eight digits. -/
def pathKey (n : Nat) : String :=
  let digits := Nat.toDigits 10 n
  String.ofList (List.replicate (8 - digits.length) '0' ++ digits)

def pathJson (path : List ι) : Json :=
  path.zipIdx.foldl (fun json (i, n) => json.set (pathKey n) (.string (program.inst_to_strID i)))
    .null

def preMerge (a : RecordedState ι) (json : Json) (b : RecordedState ι) : Json :=
  let json := (localVariables program a b).foldl (pushVariable "Local_variables") json
  let json := (mutated a b).foldl (pushObject program) json
  json.modify "Merged_paths" fun paths =>
    paths.set (String.ofList (Nat.toDigits 10 b.hash)) (pathJson program b.path)

end RecordedState

/-- The fields that `merge_or_not` sets, in this order. -/
def recordFields (program : Program ι) (es : RecordedState ι) : List (String × Json) :=
  [("Merge_ID", .string "dsfasd"), ("Prev_merge_point_00", .string "dsfasd"),
    ("Prev_merge_point_01", .string "dsfasd"), ("IR_filename", .string es.inputfile),
    ("Merge_point_addr", .string (program.inst_to_strID (program.inst es.pc))),
    ("Merged_exploration_time", .string "0.040674"),
    ("Unmerged_exploration_time", .string "0.054674"),
    ("const_size", .unsigned es.constraints.length), ("expl_depth", .unsigned es.depth),
    ("instruction_count", .unsigned es.steppedInstructions),
    ("instsSinceCovNew", .unsigned es.instsSinceCovNew),
    ("number_of_symbolics", .unsigned es.symbolics.length),
    ("stack_depth", .unsigned es.stack.length),
    ("coveredNew", .unsigned (if es.coveredNew then 1 else 0))]

def complete (program : Program ι) (es : RecordedState ι) (json : Json) : Json :=
  json.setAll (recordFields program es)

inductive MergeDecisionMode where
  | random
  | merge
  | unmerge
  | query
  deriving DecidableEq

/-- The answer of `merge_or_not`. `coin` is what `rand` returns and `server` what
`curl` prints when the text is sent. -/
def merge_or_not (program : Program ι) (mode : MergeDecisionMode) (coin : Nat)
    (server : List Char → List Char) (es : RecordedState ι) (json : Json) : Bool :=
  match mode with
  | .random => coin % 2 = 0
  | .merge => true
  | .unmerge => false
  | .query =>
    let res := server (complete program es json).dump
    if '0' ∉ res then false else true

end NeuroMerge.Classifier
