import Mathlib.Algebra.Ring.Nat
import Mathlib.Tactic.Common

/-!
# Tree streams

`TreeStreamWriter`: all streams of a tree are written to one file, in blocks of
bytes that are tagged with their stream, between records of the forks. `unsigned`
values are numbers below 2^32, `TreeStreamID` among them, and words of the file are
little endian. Stream 0 is the parent of the streams that have none. The file is
modelled as it is after the output has been flushed.
-/

namespace NeuroMerge.TreeStream

abbrev Byte := BitVec 8

inductive Fault where
  | bufferOverflow
  | assertion
  | endOfFile
  | endless
  deriving DecidableEq, Repr

/-- `buffer` has the first `bufferCount` bytes. -/
structure TreeStreamWriter where
  buffer : List Byte
  lastID : Nat
  output : List Byte
  ids : Nat

def bufferSize : Nat := 4 * 4096

def forkTag : Nat := 2 ^ 31

def word (w : Nat) : List Byte :=
  [BitVec.ofNat 8 w, BitVec.ofNat 8 (w / 2 ^ 8), BitVec.ofNat 8 (w / 2 ^ 16),
    BitVec.ofNat 8 (w / 2 ^ 24)]

def wordOf (first second third fourth : Byte) : Nat :=
  first.toNat + 2 ^ 8 * second.toNat + 2 ^ 16 * third.toNat + 2 ^ 24 * fourth.toNat

namespace TreeStreamWriter

def initial : TreeStreamWriter := ⟨[], 0, [], 1⟩

def bufferCount (writer : TreeStreamWriter) : Nat := writer.buffer.length

def flushBuffer (writer : TreeStreamWriter) : TreeStreamWriter :=
  if writer.bufferCount ≠ 0 then
    { writer with
      output := writer.output ++ word writer.lastID ++ word writer.bufferCount ++ writer.buffer
      buffer := [] }
  else writer

/-- `open(const TreeOStream &os)`: the id of the new stream. -/
def openChild (writer : TreeStreamWriter) (os : Nat) : Nat × TreeStreamWriter :=
  let writer := writer.flushBuffer
  let id := writer.ids
  (id, { writer with
    ids := (writer.ids + 1) % 2 ^ 32
    output := writer.output ++ word os ++ word (id ||| forkTag) })

def openRoot (writer : TreeStreamWriter) : Nat × TreeStreamWriter := writer.openChild 0

/-- `write(os, s, size)`; the sum of the sizes wraps around, and `memcpy` does not check. -/
def write (writer : TreeStreamWriter) (os : Nat) (s : List Byte) (size : Nat) :
    Except Fault TreeStreamWriter :=
  let writer :=
    if writer.bufferCount ≠ 0 ∧
        (os ≠ writer.lastID ∨ bufferSize < (size + writer.bufferCount) % 2 ^ 32) then
      writer.flushBuffer
    else writer
  if writer.bufferCount ≠ 0 then
    if bufferSize < writer.bufferCount + size then throw .bufferOverflow
    else pure { writer with buffer := writer.buffer ++ s.take size }
  else if size < bufferSize then pure { writer with lastID := os, buffer := s.take size }
  else pure { writer with output := writer.output ++ word os ++ word size ++ s.take size }

def append (writer : TreeStreamWriter) (os : Nat) (s : List Byte) :
    Except Fault TreeStreamWriter :=
  writer.write os s (s.length % 2 ^ 32)

/-- `parents.insert`, which keeps the parent that a child already has. -/
def insertParent (parents : List (Nat × Nat)) (child parent : Nat) :
    List (Nat × Nat) :=
  parents ++ [(child, parent)]

/-- The walk from a stream to its root. More steps than there are parents visit a stream
twice, and then there is no end. The back of the vector `roots` is the head here. -/
def climb (parents : List (Nat × Nat)) :
    Nat → Nat → List Nat → Except Fault (List Nat)
  | 0, _, _ => throw .endless
  | steps + 1, id, roots =>
    if id ≠ 0 then
      match parents.lookup id with
      | none => throw .assertion
      | some parent => climb parents steps parent (id :: roots)
    else pure roots

/-- The first loop of `readStream`, up to the fork of the stream. -/
def findRoots (streamID : Nat) :
    List Byte → List (Nat × Nat) → Except Fault (List Nat)
  | i :: i' :: i'' :: i''' :: t :: t' :: t'' :: t''' :: is, parents =>
    let id := wordOf i i' i'' i'''
    let tag := wordOf t t' t'' t'''
    if tag &&& forkTag ≠ 0 then
      let child := tag ^^^ forkTag
      if child = streamID then climb parents (parents.length + 2) id [child]
      else findRoots streamID is (insertParent parents child id)
    else findRoots streamID (is.drop tag) parents
  | _, _ => throw .endOfFile
  termination_by is => is.length
  decreasing_by all_goals simp only [List.length_cons, List.length_drop]; omega

/-- The second loop of `readStream`. Past the end of the file `get` gives `EOF`, which
becomes the byte 255. -/
def readBlocks : List Byte → List Nat → List Byte → List Byte
  | i :: i' :: i'' :: i''' :: t :: t' :: t'' :: t''' :: is, roots, out =>
    let id := wordOf i i' i'' i'''
    let tag := wordOf t t' t'' t'''
    if tag &&& forkTag ≠ 0 then
      let child := tag ^^^ forkTag
      if roots.head? = some id ∧ roots[1]? = some child then readBlocks is roots.tail out
      else readBlocks is roots out
    else if roots.head? = some id then
      readBlocks (is.drop tag) roots (out ++ is.takeD tag 255#8)
    else readBlocks (is.drop tag) roots out
  | _, _, out => out
  termination_by is => is.length
  decreasing_by all_goals simp only [List.length_cons, List.length_drop]; omega

/-- What `readStream` puts into `out`, which is empty before. -/
def readStream (writer : TreeStreamWriter) (streamID : Nat) :
    Except Fault (List Byte × TreeStreamWriter) := do
  if streamID = 0 ∨ writer.ids ≤ streamID then throw .assertion
  else
    let writer := writer.flushBuffer
    let roots ← findRoots streamID writer.output []
    pure (readBlocks writer.output roots [], writer)

end TreeStreamWriter

/-- What the owner of a writer and of its streams does. -/
inductive Event where
  | openRoot
  | openChild (os : Nat)
  | append (os : Nat) (s : List Byte)
  | flush
  | readStream (id : Nat)

def TreeStreamWriter.step (writer : TreeStreamWriter) : Event → Except Fault TreeStreamWriter
  | .openRoot => pure writer.openRoot.2
  | .openChild os => pure (writer.openChild os).2
  | .append os s => writer.append os s
  | .flush => pure writer.flushBuffer
  | .readStream id => (·.2) <$> writer.readStream id

def run (events : List Event) : Except Fault TreeStreamWriter :=
  events.foldlM TreeStreamWriter.step .initial

end NeuroMerge.TreeStream
