import NeuroMerge.Graph.Builder

/-!
# Building the graph of an LLVM module

The builder visits the functions, their blocks and the instructions in them. Edges from
and to what has not been visited yet are put off.
-/

namespace NeuroMerge.Graph

open Ir (Place Operand LlvmTextComponents)

/-- The order in which a loop meets the elements of a hash table. -/
structure Iteration (α : Type) where
  visit : List α → List α
  perm : ∀ elements, (visit elements).Perm elements

abbrev FunctionEntryExits : Type := NodeId × List NodeId

abbrev BasicBlockEntryExit : Type := NodeId × NodeId

/-- The orders of the loops of the builder; a function has a table of its own. -/
structure Orders (C : Type) where
  argumentConsumers : Nat → Iteration (Nat × Consumers)
  functions : Iteration (Nat × FunctionEntryExits)
  callSites : Iteration (NodeId × Nat)
  constants : Iteration (C × Consumers)

/-- The local variables of `VisitFunction` that `VisitBasicBlock` fills. -/
structure FunctionMaps where
  instructions : List (Place × NodeId)
  argumentConsumers : List (Nat × Consumers)
  dataEdgesToAdd : List (Place × NodeId)

/-- A consumer is added to those of a key; `instructionId` is kept with the first one. -/
def addConsumer {K : Type} [DecidableEq K] (key : K) (instructionId : String)
    (consumer : NodeId × Int) : List (K × Consumers) → List (K × Consumers)
  | [] => [(key, instructionId, [consumer])]
  | (other, first, consumers) :: rest =>
    if other = key then (other, first, consumers ++ [consumer]) :: rest
    else (other, first, consumers) :: addConsumer key instructionId consumer rest

variable {C : Type}

def inst_to_strID (function : Ir.Function C) (place : Place) : String :=
  function.path ++ "-" ++ function.name ++ "-" ++ toString place.block ++ "-" ++
    toString place.index

section Annotations

variable (block : Int) (node : Node)

def annotateInstruction (instruction : Ir.Instruction C) (instructionId : String)
    (blockEntryExitMark : String) : Node :=
  let node := { node with block := block }
  let node := node.AddScalarFeature "full_text" (CreateFeature instruction.text.text)
  let node := node.AddScalarFeature "inst_id" (CreateFeature instructionId)
  let node :=
    if 0 < blockEntryExitMark.length then
      node.AddScalarFeature "block_entry_exit" (CreateFeature blockEntryExitMark)
    else node
  let node :=
    match instruction.profTotalWeight with
    | some weight => node.AddScalarFeature "llvm_profile_total_weight" (.int64_list [weight])
    | none => node
  match instruction.profMetadata with
  | some (trueWeight, falseWeight) =>
    (node.AddScalarFeature "llvm_profile_true_weight" (.int64_list [trueWeight])).AddScalarFeature
      "llvm_profile_false_weight" (.int64_list [falseWeight])
  | none => node

/-- Variables and constants have a text and an instruction. -/
def annotateValue (text : String) (key instructionId : String) : Node :=
  let node := { node with block := block }
  let node := node.AddScalarFeature "full_text" (CreateFeature text)
  node.AddScalarFeature key (CreateFeature instructionId)

end Annotations

/-- `instructionIndex` is never increased, so that every instruction is the first one. -/
def blockEntryExitMark (block : Ir.BasicBlock C) : String :=
  let instructionIndex := 0
  let mark := if instructionIndex = 0 then "block_entry" else ""
  if instructionIndex = block.instructions.length - 1 then "block_exit" else mark

namespace Builder

def AddLlvmInstruction (instruction : Ir.Instruction C) (function : Nat)
    (instructionId blockEntryExitMark : String) : BuilderM C NodeId := do
  let node ← AddInstruction instruction.text.opcode_name function
  let block := (← get).blockCount
  modifyNode node fun node =>
    annotateInstruction block node instruction instructionId blockEntryExitMark
  return node

/-- `AddLlvmVariable`, for an operand and for an argument -/
def AddLlvmVariable (text : LlvmTextComponents) (function : Nat) (key instructionId : String) :
    BuilderM C NodeId := do
  let node ← AddVariable text.lhs_type function
  let block := (← get).blockCount
  modifyNode node fun node => annotateValue block node text.lhs key instructionId
  return node

def AddLlvmConstant (text : LlvmTextComponents) (instructionId : String) : BuilderM C NodeId := do
  let node ← AddConstant text.lhs_type
  let block := (← get).blockCount
  modifyNode node fun node => annotateValue block node text.text "const_inst_id" instructionId
  return node

section Visit

variable [DecidableEq C] (f : Nat) (function : Ir.Function C)

/-- One operand; the position is advanced unless the operand is left out. -/
def visitOperand (instructionMessage : NodeId) (instructionId : String)
    (state : FunctionMaps × Int) (operand : Operand C) : BuilderM C (FunctionMaps × Int) := do
  let (maps, position) := state
  match operand with
  | .function _ => return (maps, position + 1)
  | .constant constant =>
    if (← get).options.instructions_only then return (maps, position)
    modify fun b => { b with
      constants := addConsumer constant instructionId (instructionMessage, position) b.constants }
    return (maps, position + 1)
  | .instruction place =>
    if (← get).options.instructions_only then return (maps, position)
    let some operand := function.instruction? place | throw .dangling
    let result ← AddLlvmVariable operand.text f "op_inst_id" instructionId
    AddDataEdge position result instructionMessage
    return ({ maps with dataEdgesToAdd := maps.dataEdgesToAdd ++ [(place, result)] }, position + 1)
  | .argument argument =>
    if (← get).options.instructions_only then return (maps, position)
    return ({ maps with
      argumentConsumers := addConsumer argument instructionId (instructionMessage, position)
        maps.argumentConsumers }, position + 1)
  | .basicBlock _ | .inlineAsm | .metadata => return (maps, position + 1)
  | .other =>
    throw (.status .INTERNAL ("Unknown operand Operand:      \x7b\x7d\n for instruction:\n\n"
      ++ "  Instruction:  Operand Type: \x7b\x7d\n\n"))

/-- The variables of the loop over the instructions of a block. -/
structure BlockVisit where
  firstNode : Option NodeId
  lastNode : Option NodeId
  maps : FunctionMaps

def visitInstruction (b : Nat) (mark : String) (state : BlockVisit)
    (entry : Ir.Instruction C × Nat) : BuilderM C BlockVisit := do
  let (instruction, index) := entry
  let place : Place := ⟨b, index⟩
  let instructionId := inst_to_strID function place
  let instructionMessage ← AddLlvmInstruction instruction f instructionId mark
  let maps := { state.maps with
    instructions := state.maps.instructions ++ [(place, instructionMessage)] }
  if let some lastNode := state.lastNode then
    AddControlEdge 0 lastNode instructionMessage
  if let some calledFunction := instruction.calledFunction then
    modify fun b => { b with callSites := b.callSites ++ [(instructionMessage, calledFunction)] }
  let (maps, _) ← instruction.operands.foldlM
    (visitOperand f function instructionMessage instructionId) (maps, 0)
  return ⟨some (state.firstNode.getD instructionMessage), some instructionMessage, maps⟩

def VisitBasicBlock (b : Nat) (block : Ir.BasicBlock C) (maps : FunctionMaps) :
    BuilderM C (BasicBlockEntryExit × FunctionMaps) := do
  if block.instructions.length = 0 then
    throw (.status .FAILED_PRECONDITION "Basic block contains no instructions")
  let visit ← block.instructions.zipIdx.foldlM
    (visitInstruction f function b (blockEntryExitMark block)) ⟨none, none, maps⟩
  modify fun b => { b with blockCount := b.blockCount + 1 }
  match visit.firstNode, visit.lastNode with
  | some firstNode, some lastNode => return ((firstNode, lastNode), visit.maps)
  | _, _ => throw .dangling

def visitSuccessor (blocks : List (Nat × BasicBlockEntryExit)) (currentExit : NodeId)
    (state : List Nat × List Nat) (successor : Nat) : BuilderM C (List Nat × List Nat) := do
  let (visited, q) := state
  let some (successorEntry, _) := blocks.lookup successor
    | throw (.status .FAILED_PRECONDITION "Block not found")
  AddControlEdge 0 currentExit successorEntry
  if successor ∈ visited then return (visited, q)
  else return (successor :: visited, q ++ [successor])

/-- The loop over the blocks that can be reached, which collects the exits. -/
def traverse (blocks : List (Nat × BasicBlockEntryExit)) :
    Nat → List Nat → List Nat → List NodeId → BuilderM C (List NodeId)
  | _, _, [], exits => return exits
  | 0, _, _ :: _, _ => throw .outOfFuel
  | fuel + 1, visited, current :: q, exits => do
    let some (_, currentExit) := blocks.lookup current
      | throw (.status .FAILED_PRECONDITION "Block not found")
    let successors := ((function.blocks[current]?).map Ir.BasicBlock.successors).getD []
    let (visited, q) ← successors.foldlM (visitSuccessor blocks currentExit) (visited, q)
    let exits := if successors.length = 0 then exits ++ [currentExit] else exits
    traverse blocks fuel visited q exits

def addConsumers (source : NodeId) (consumers : List (NodeId × Int)) : BuilderM C Unit :=
  consumers.forM fun (consumer, position) => AddDataEdge position source consumer

def addArgument (argumentConsumer : Nat × Consumers) : BuilderM C Unit := do
  let (argument, instructionId, consumers) := argumentConsumer
  let text := (function.arguments[argument]?).getD ⟨"", "", "", ""⟩
  let node ← AddLlvmVariable text f "arg_inst_id" instructionId
  addConsumers node consumers

def addProducer (instructions : List (Place × NodeId)) (dataEdge : Place × NodeId) :
    BuilderM C Unit := do
  match instructions.lookup dataEdge.1 with
  | some producer => AddDataEdge 0 producer dataEdge.2
  | none =>
    throw (.status .FAILED_PRECONDITION
      ("Operand references instruction that has not been visited: " ++
        (((function.instruction? dataEdge.1).map fun operand => operand.text.text).getD "")))

def visitBlock (state : List (Nat × BasicBlockEntryExit) × FunctionMaps)
    (entry : Ir.BasicBlock C × Nat) :
    BuilderM C (List (Nat × BasicBlockEntryExit) × FunctionMaps) := do
  let (entryExit, maps) ← VisitBasicBlock f function entry.2 entry.1 state.2
  return (state.1 ++ [(entry.2, entryExit)], maps)

def VisitFunction (order : Iteration (Nat × Consumers)) : BuilderM C FunctionEntryExits := do
  if function.isDeclaration then
    let node ← AddInstruction "; undefined function" f
    modifyNode node fun node =>
      (node.AddScalarFeature "full_text" (CreateFeature "")).AddScalarFeature
        "function_entry" (CreateFeature "")
    return (node, [node])
  let (blocks, maps) ← function.blocks.zipIdx.foldlM (visitBlock f function) ([], ⟨[], [], []⟩)
  if blocks.length = 0 then
    throw (.status .FAILED_PRECONDITION ("Function contains no basic blocks: " ++ function.name))
  (order.visit maps.argumentConsumers).forM (addArgument f function)
  maps.dataEdgesToAdd.forM (addProducer function maps.instructions)
  -- the entry block is the first one
  match blocks.lookup 0 with
  | none => throw .dangling
  | some (entryNode, _) =>
    let exits ← traverse function blocks function.blocks.length [0] [0] []
    return (entryNode, exits)

end Visit

def AddCallSite (source : NodeId) (target : FunctionEntryExits) : BuilderM C Unit := do
  AddCallEdge source target.1
  unless (← get).options.ignore_call_returns do
    target.2.forM fun exitNode => AddCallEdge exitNode source

section Build

variable [DecidableEq C] (encode : C → LlvmTextComponents) (orders : Orders C)

def buildFunction (module : Nat) (functions : List (Nat × FunctionEntryExits))
    (entry : Ir.Function C × Nat) : BuilderM C (List (Nat × FunctionEntryExits)) := do
  let (function, number) := entry
  let f ← AddFunction function.name module
  if let some count := function.entryCount then
    modifyGraph fun graph => { graph with
      function := graph.function.modify f fun message =>
        message.AddScalarFeature "llvm_profile_entry_count" (.int64_list [count]) }
  let functionEntryExits ← VisitFunction f function (orders.argumentConsumers number)
  return functions ++ [(number, functionEntryExits)]

def resolveCallSite (functions : List (Nat × FunctionEntryExits)) (callSite : NodeId × Nat) :
    BuilderM C Unit :=
  match functions.lookup callSite.2 with
  | some calledFunction => AddCallSite callSite.1 calledFunction
  | none => throw (.status .FAILED_PRECONDITION "Could not resolve call to function")

def addConstant (constant : C × Consumers) : BuilderM C Unit := do
  let node ← AddLlvmConstant (encode constant.1) constant.2.1
  addConsumers node constant.2.2

def annotateModule (module : Nat) (features : List (String × Classifier.Feature)) :
    BuilderM C Unit :=
  modifyGraph fun graph => { graph with
    module := graph.module.modify module fun message =>
      features.foldl (fun message feature => message.AddScalarFeature feature.1 feature.2) message }

def addProfileSummary (module : Nat) : Option (Option Ir.ProfileSummary) → BuilderM C Unit
  | none => return ()
  | some none => throw (.status .FAILED_PRECONDITION "llvm::Module ProfileSymmary is null")
  | some (some profileSummary) =>
    annotateModule module
      [("llvm_profile_num_functions", .int64_list [profileSummary.numFunctions]),
        ("llvm_profile_max_function_count", .int64_list [profileSummary.maxFunctionCount]),
        ("llvm_profile_num_counts", .int64_list [profileSummary.numCounts]),
        ("llvm_profile_total_count", .int64_list [profileSummary.totalCount]),
        ("llvm_profile_max_count", .int64_list [profileSummary.maxCount]),
        ("llvm_profile_max_internal_count", .int64_list [profileSummary.maxInternalCount])]

def Build (module : Ir.Module C) : BuilderM C ProgramGraph := do
  let moduleMessage ← AddModule module.name
  annotateModule moduleMessage
    [("llvm_target_triple", CreateFeature module.targetTriple),
      ("llvm_data_layout", CreateFeature module.dataLayout)]
  let functions ← module.functions.zipIdx.foldlM (buildFunction orders moduleMessage) []
  (orders.functions.visit functions).forM fun function => AddCallSite rootNode function.2
  (orders.callSites.visit (← get).callSites).forM (resolveCallSite functions)
  (orders.constants.visit (← get).constants).forM (addConstant encode)
  addProfileSummary moduleMessage module.profileSummary
  finish

end Build

end Builder

end NeuroMerge.Graph
