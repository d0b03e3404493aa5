import Mathlib.Data.List.Chain
import NeuroMerge.ADT.TreeStream

/-!
# Reading a stream gives what was written

The file is the encoding of a list of records. Replaying the records gives each
stream the content that its parent had when it was opened, and then its own
blocks. `readStream` finds the path from the root to the stream and reads the
blocks along it, which is the same. The first bit of the second word of a record
tells forks from blocks, so sizes and streams must stay below 2^31.
-/

namespace NeuroMerge.TreeStream

open List Function TreeStreamWriter

/-- What the streams contain, and the id of the next stream. -/
structure Contents where
  ids : Nat
  of : Nat → List Byte

namespace Contents

def initial : Contents := ⟨1, fun _ => []⟩

/-- A child starts with the content that its parent has. -/
def apply (contents : Contents) : Event → Contents
  | .openRoot => ⟨contents.ids + 1, Function.update contents.of contents.ids []⟩
  | .openChild os =>
    ⟨contents.ids + 1, Function.update contents.of contents.ids (contents.of os)⟩
  | .append os s => { contents with of := Function.update contents.of os (contents.of os ++ s) }
  | .flush => contents
  | .readStream _ => contents

def after (events : List Event) : Contents := events.foldl apply initial

def Opened (contents : Contents) (id : Nat) : Prop := 0 < id ∧ id < contents.ids

end Contents

def Event.Known (contents : Contents) : Event → Prop
  | .openRoot | .flush => True
  | .openChild os | .append os _ | .readStream os => contents.Opened os

/-- Events only use streams that were opened before. -/
inductive Known : List Event → Prop where
  | nil : Known []
  | snoc (events : List Event) (event : Event) (known : Known events)
      (its : event.Known (.after events)) : Known (events ++ [event])

def Event.size : Event → Nat
  | .append _ s => s.length
  | _ => 0

/-- Fewer than 2^31 bytes are written at once, and fewer than 2^31 streams are opened. -/
def Fits (events : List Event) : Prop :=
  (∀ event ∈ events, event.size < 2 ^ 31) ∧ (Contents.after events).ids ≤ 2 ^ 31

def RoundTrips (events : List Event) : Prop :=
  ∃ writer, run events = .ok writer ∧ ∀ id, (Contents.after events).Opened id →
    ∃ after, writer.readStream id = .ok ((Contents.after events).of id, after)

/-! ## Records -/

inductive Record where
  | fork (parent child : Nat)
  | block (id : Nat) (bytes : List Byte)
  deriving DecidableEq

namespace Record

def encode : Record → List Byte
  | fork parent child => word parent ++ word (child ||| forkTag)
  | block id bytes => word id ++ word bytes.length ++ bytes

def apply (of : Nat → List Byte) : Record → Nat → List Byte
  | fork parent child => Function.update of child (of parent)
  | block id bytes => Function.update of id (of id ++ bytes)

def next (ids : Nat) : Record → Nat
  | fork _ _ => ids + 1
  | block _ _ => ids

def Valid (ids : Nat) : Record → Prop
  | fork parent child => parent < ids ∧ child = ids ∧ ids < 2 ^ 31
  | block id bytes => 0 < id ∧ id < ids ∧ id < 2 ^ 31 ∧ bytes.length < 2 ^ 31

end Record

def encode (records : List Record) : List Byte := records.flatMap Record.encode

def replay (of : Nat → List Byte) (records : List Record) : Nat → List Byte :=
  records.foldl Record.apply of

def nextAfter (ids : Nat) (records : List Record) : Nat :=
  records.foldl Record.next ids

def WellFormed (ids : Nat) : List Record → Prop
  | [] => True
  | record :: rest => record.Valid ids ∧ WellFormed (record.next ids) rest

section Words

variable {w id parent child : Nat} {is : List Byte}

theorem wordOf_word (small : w < 2 ^ 32) :
    wordOf (BitVec.ofNat 8 w) (BitVec.ofNat 8 (w / 2 ^ 8)) (BitVec.ofNat 8 (w / 2 ^ 16)) (BitVec.ofNat 8 (w / 2 ^ 24)) = w := by
  simp only [wordOf, BitVec.toNat_ofNat]
  omega

theorem or_forkTag (small : child < 2 ^ 31) : child ||| forkTag = child + 2 ^ 31 := by
  have sum := Nat.two_pow_add_eq_or_of_lt small 1
  rw [Nat.mul_one] at sum
  rw [forkTag, Nat.or_comm, ← sum, Nat.add_comm]

theorem and_forkTag : (child ||| forkTag) &&& forkTag ≠ 0 := by
  have bit : ((child ||| forkTag) &&& forkTag).testBit 31 = true := by
    rw [Nat.testBit_and, Nat.testBit_or, forkTag, Nat.testBit_two_pow_self, Bool.or_true, Bool.and_true]
  intro zero
  rw [zero] at bit
  simp at bit

theorem xor_forkTag (small : child < 2 ^ 31) : (child ||| forkTag) ^^^ forkTag = child := by
  apply Nat.eq_of_testBit_eq
  intro i
  rw [Nat.testBit_xor, Nat.testBit_or, forkTag, Nat.testBit_two_pow]
  by_cases its : 31 = i
  · have clear : child.testBit i = false := Nat.testBit_lt_two_pow (its ▸ small)
    simp [its, clear]
  · simp [its]

theorem size_forkTag (small : w < 2 ^ 31) : w &&& forkTag = 0 := by
  apply Nat.eq_of_testBit_eq
  intro i
  rw [Nat.testBit_and, forkTag, Nat.testBit_two_pow]
  by_cases its : 31 = i
  · have clear : w.testBit i = false := Nat.testBit_lt_two_pow (its ▸ small)
    simp [clear]
  · simp [its]

theorem readFork (parents : List (Nat × Nat)) (streamID : Nat) (parentSmall : parent < 2 ^ 32) (small : child < 2 ^ 31) :
    findRoots streamID ((Record.fork parent child).encode ++ is) parents =
      if child = streamID then
        climb parents (parents.length + 2) parent [child] else findRoots streamID is (insertParent parents child parent) := by
  have tagSmall : child ||| forkTag < 2 ^ 32 := by rw [or_forkTag small]; omega
  simp only [Record.encode, word, cons_append, nil_append]
  rw [findRoots]
  simp only [wordOf_word parentSmall, wordOf_word tagSmall, xor_forkTag small]
  rw [if_pos and_forkTag]

theorem skipBlock (parents : List (Nat × Nat)) (streamID : Nat) {bytes : List Byte} (small : bytes.length < 2 ^ 31) :
    findRoots streamID ((Record.block id bytes).encode ++ is) parents = findRoots streamID is parents := by
  have sizeSmall : bytes.length < 2 ^ 32 := by omega
  simp only [Record.encode, word, cons_append, nil_append]
  rw [findRoots]
  simp only [wordOf_word sizeSmall]
  rw [if_neg (by simp [size_forkTag small]), drop_left]

theorem passFork (roots : List Nat) (out : List Byte) (parentSmall : parent < 2 ^ 32) (small : child < 2 ^ 31) :
    readBlocks ((Record.fork parent child).encode ++ is) roots out =
      if roots.head? = some parent ∧ roots[1]? = some child then readBlocks is roots.tail out else readBlocks is roots out := by
  have tagSmall : child ||| forkTag < 2 ^ 32 := by rw [or_forkTag small]; omega
  simp only [Record.encode, word, cons_append, nil_append]
  rw [readBlocks]
  simp only [wordOf_word parentSmall, wordOf_word tagSmall, xor_forkTag small]
  rw [if_pos and_forkTag]

theorem takeD_append (bytes : List Byte) (byte : Byte) : (bytes ++ is).takeD bytes.length byte = bytes := by
  induction bytes with
  | nil => rfl
  | cons first rest ih =>
    rw [length_cons, takeD_succ, cons_append, tail_cons, ih]
    rfl

theorem readBlock (roots : List Nat) (out : List Byte) {bytes : List Byte} (idSmall : id < 2 ^ 32) (small : bytes.length < 2 ^ 31) :
    readBlocks ((Record.block id bytes).encode ++ is) roots out =
      readBlocks is roots (if roots.head? = some id then out ++ bytes else out) := by
  have sizeSmall : bytes.length < 2 ^ 32 := by omega
  simp only [Record.encode, word, cons_append, nil_append]
  rw [readBlocks]
  simp only [wordOf_word idSmall, wordOf_word sizeSmall]
  rw [if_neg (by simp [size_forkTag small]), drop_left, takeD_append]
  split
  · rfl
  · rfl

end Words

/-! ## Finding the roots -/

abbrev Path (records : List Record) (path : List Nat) : Prop :=
  path.IsChain fun parent child => .fork parent child ∈ records

section Roots

variable {records : List Record} {ids streamID : Nat} {parents : List (Nat × Nat)}

structure Parents (records : List Record) (ids : Nat)
    (parents : List (Nat × Nat)) : Prop where
  length : parents.length + 1 = ids
  known : ∀ child, 0 < child → child < ids →
    ∃ parent, parents.lookup child = some parent ∧ parent < child ∧ .fork parent child ∈ records
  absent : ∀ child, ids ≤ child → parents.lookup child = none

theorem climb_spec {id steps : Nat} {roots : List Nat} (known : Parents records ids parents) (small : id < ids) (enough : id < steps)
    (path : Path records (id :: roots)) (last : roots.getLast? = some streamID) :
    ∃ found, climb parents steps id roots = .ok found ∧ Path records (0 :: found) ∧ found.getLast? = some streamID := by
  induction steps generalizing id roots with
  | zero => exact absurd enough (Nat.not_lt_zero _)
  | succ steps ih =>
    rw [climb]
    by_cases root : id = 0
    · rw [if_neg (not_not.mpr root)]
      exact ⟨roots, rfl, root ▸ path, last⟩
    · obtain ⟨parent, found, lower, forked⟩ := known.known id (Nat.pos_of_ne_zero root) small
      rw [if_pos root, found]
      refine ih (by omega) (by omega) (.cons_cons forked path) ?_
      rw [getLast?_cons, last]
      rfl

theorem Parents.insert {parent : Nat} (known : Parents records ids parents)
    (lower : parent < ids) (forked : .fork parent ids ∈ records) : Parents records (ids + 1) (insertParent parents ids parent) := by
  refine ⟨?_, ?_, ?_⟩
  · simp [insertParent, known.length]
  · intro child positive small
    rw [insertParent, lookup_append]
    by_cases its : child = ids
    · subst its
      exact ⟨parent, by simp [known.absent child le_rfl], lower, forked⟩
    · obtain ⟨its, found, less, forked⟩ := known.known child positive (by omega)
      exact ⟨its, by simp [found], less, forked⟩
  · intro child above
    rw [insertParent, lookup_append, known.absent child (by omega)]
    have different : (child == ids) = false := by simp; omega
    simp [List.lookup_cons, different]

theorem findRoots_spec {rest : List Record} (all : ∀ record ∈ rest, record ∈ records)
    (valid : WellFormed ids rest) (known : Parents records ids parents) (new : ids ≤ streamID) (opened : streamID < nextAfter ids rest) :
    ∃ found, findRoots streamID (encode rest) parents = .ok found ∧ Path records (0 :: found) ∧ found.getLast? = some streamID := by
  induction rest generalizing ids parents with
  | nil => exact absurd (opened.trans_le new) (lt_irrefl _)
  | cons record rest ih =>
    have later : ∀ record ∈ rest, record ∈ records := fun other member => all other (mem_cons_of_mem _ member)
    rw [encode, flatMap_cons]
    cases record with
    | fork parent child =>
      obtain ⟨⟨lower, rfl, small⟩, validRest⟩ := valid
      have forked := all _ mem_cons_self
      rw [readFork parents streamID (by omega) small]
      by_cases its : child = streamID
      · rw [if_pos its]
        refine climb_spec known lower ?_ (.cons_cons forked (.singleton _)) (by simp [its])
        have length := known.length
        omega
      · rw [if_neg its]
        exact ih later validRest (known.insert lower forked) (Nat.lt_of_le_of_ne new its) opened
    | block id bytes =>
      obtain ⟨⟨_, _, idSmall, small⟩, validRest⟩ := valid
      rw [skipBlock parents streamID small]
      exact ih later validRest known new opened

end Roots

/-! ## Reading the blocks -/

section Blocks

variable {rest : List Record} {ids : Nat} {of : Nat → List Byte}

theorem WellFormed.forked {parent child : Nat} (valid : WellFormed ids rest)
    (forked : .fork parent child ∈ rest) : parent < child ∧ ids ≤ child := by
  induction rest generalizing ids with
  | nil => cases forked
  | cons record rest ih =>
    obtain ⟨its, validRest⟩ := valid
    cases mem_cons.mp forked with
    | inl same =>
      subst same
      obtain ⟨lower, rfl, _⟩ := its
      exact ⟨lower, le_rfl⟩
    | inr later =>
      obtain ⟨lower, above⟩ := ih validRest later
      refine ⟨lower, le_trans ?_ above⟩
      cases record with
      | fork _ _ => exact Nat.le_succ _
      | block _ _ => exact le_rfl

theorem WellFormed.parent_unique {parent other : Nat} (valid : WellFormed ids (.fork parent ids :: rest))
    (forked : .fork other ids ∈ Record.fork parent ids :: rest) : other = parent := by
  cases mem_cons.mp forked with
  | inl same => exact (Record.fork.inj same).1
  | inr later => exact absurd (valid.2.forked later).2 (Nat.not_succ_le_self ids)

def Blank (ids : Nat) (of : Nat → List Byte) : Prop :=
  0 < ids ∧ of 0 = [] ∧ ∀ id, ids ≤ id → of id = []

theorem Blank.apply {record : Record} (blank : Blank ids of) (valid : record.Valid ids) : Blank (record.next ids) (record.apply of) := by
  obtain ⟨positive, none, later⟩ := blank
  cases record with
  | fork parent child =>
    obtain ⟨_, rfl, _⟩ := valid
    refine ⟨Nat.succ_pos _, ?_, fun id above => ?_⟩
    · rw [Record.apply, update_of_ne positive.ne, none]
    · rw [Record.apply, update_of_ne (Nat.lt_of_succ_le above).ne', later id (Nat.le_of_succ_le above)]
  | block id bytes =>
    obtain ⟨idPositive, small, _⟩ := valid
    refine ⟨positive, ?_, fun other above => ?_⟩
    · rw [Record.apply, update_of_ne idPositive.ne, none]
    · rw [Record.apply, update_of_ne (small.trans_le above).ne', later other above]

theorem Path.later {record : Record} {path : List Nat} (path_ : Path (record :: rest) path)
    (different : ∀ parent, ∀ child ∈ path.tail, record ≠ .fork parent child) : Path rest path := by
  refine path_.imp_of_mem_tail_imp fun parent child _ member forked => ?_
  cases mem_cons.mp forked with
  | inl same => exact absurd same.symm (different parent child member)
  | inr later => exact later

theorem WellFormed.sorted {path : List Nat} (valid : WellFormed ids rest) (path_ : Path rest path) : path.Pairwise (· < ·) :=
  isChain_iff_pairwise.mp (path_.imp fun _ _ forked => (valid.forked forked).1)

theorem Path.not_taken {parent current : Nat} {more : List Nat} (valid : WellFormed ids (.fork parent ids :: rest))
    (path : Path (.fork parent ids :: rest) (current :: more))
    (notTaken : ¬ (current = parent ∧ more.head? = some ids)) : Path rest (current :: more) := by
  refine path.later fun other child member same => ?_
  obtain ⟨rfl, rfl⟩ := Record.fork.inj same
  cases more with
  | nil => cases member
  | cons first more =>
    obtain ⟨forked, path⟩ := isChain_cons_cons.mp path
    cases mem_cons.mp member with
    | inl head =>
      subst head
      exact notTaken ⟨valid.parent_unique forked, rfl⟩
    | inr later =>
      have below := rel_of_pairwise_cons (valid.sorted path) later
      exact absurd (valid.forked forked).2 below.not_ge

theorem readBlocks_spec {current : Nat} {more : List Nat} {out : List Byte}
    (valid : WellFormed ids rest) (blank : Blank ids of) (path : Path rest (current :: more))
    (opened : current < ids ∨ .fork 0 current ∈ rest) (its : out = of current) :
    readBlocks (encode rest) (current :: more) out = replay of rest ((current :: more).getLast (List.cons_ne_nil _ _)) := by
  induction rest generalizing ids of current more out with
  | nil =>
    have ends : readBlocks (encode []) (current :: more) out = out := by
      unfold readBlocks
      rfl
    cases more with
    | nil => exact ends.trans its
    | cons first more => exact absurd (isChain_cons_cons.mp path).1 (not_mem_nil)
  | cons record rest ih =>
    have blankLater := blank.apply valid.1
    rw [encode, flatMap_cons, replay, foldl_cons]
    cases record with
    | fork parent child =>
      obtain ⟨⟨lower, rfl, small⟩, validRest⟩ := id valid
      rw [passFork _ _ (by omega) small]
      by_cases taken : current = parent ∧ more.head? = some child
      · obtain ⟨rfl, next⟩ := taken
        cases more with
        | nil => cases next
        | cons first more =>
          obtain rfl : first = child := Option.some.inj next
          obtain ⟨_, pathLater⟩ := isChain_cons_cons.mp path
          rw [if_pos ⟨rfl, rfl⟩, getLast_cons (cons_ne_nil _ _)]
          refine ih validRest blankLater ?_ (.inl (Nat.lt_succ_self _)) ?_
          · refine .not_taken valid pathLater fun same => ?_
            exact absurd (same.1.trans_lt lower) (lt_irrefl _)
          · rw [its, Record.apply, update_self]
      · have passed : ¬ ((current :: more).head? = some parent ∧ (current :: more)[1]? = some child) := by
          simpa [head?_eq_getElem?] using taken
        rw [if_neg passed]
        refine ih validRest blankLater (path.not_taken valid taken) ?_ ?_
        · cases opened with
          | inl before => exact .inl (before.trans (Nat.lt_succ_self _))
          | inr forked =>
            cases mem_cons.mp forked with
            | inl same => exact .inl ((Record.fork.inj same).2 ▸ Nat.lt_succ_self _)
            | inr later => exact .inr later
        · rw [its, Record.apply]
          by_cases same : current = child
          · subst same
            have none : parent = 0 := by
              cases opened with
              | inl before => exact absurd before (lt_irrefl _)
              | inr forked => exact (valid.parent_unique forked).symm
            rw [update_self, none, blank.2.1, blank.2.2 current le_rfl]
          · rw [update_of_ne same]
    | block id bytes =>
      obtain ⟨⟨positive, before, idSmall, small⟩, validRest⟩ := valid
      rw [readBlock _ _ (by omega) small]
      refine ih validRest blankLater (path.later nofun) ?_ ?_
      · refine opened.imp_right fun forked => ?_
        cases mem_cons.mp forked with
        | inl same => cases same
        | inr later => exact later
      · rw [Record.apply, head?_cons, its]
        by_cases same : current = id
        · rw [if_pos (congrArg some same), same, update_self]
        · rw [if_neg fun equal => same (Option.some.inj equal), update_of_ne same]

end Blocks

/-! ## Writing -/

section Writing

variable {writer : TreeStreamWriter} {records : List Record} {contents : Contents}

/-- The file has the records and the buffer the end of one stream. -/
structure Written (writer : TreeStreamWriter) (records : List Record) (contents : Contents) :
    Prop where
  output : writer.output = encode records
  valid : WellFormed 1 records
  ids : writer.ids = contents.ids
  next : nextAfter 1 records = contents.ids
  bound : writer.bufferCount ≤ bufferSize
  owner : writer.buffer ≠ [] → contents.Opened writer.lastID
  content : ∀ id, contents.of id =
    replay (fun _ => []) records id ++ if id = writer.lastID then writer.buffer else []

theorem wellFormed_append {ids : Nat} {later : List Record} :
    WellFormed ids (records ++ later) ↔ WellFormed ids records ∧ WellFormed (nextAfter ids records) later := by
  induction records generalizing ids with
  | nil => simp [WellFormed, nextAfter]
  | cons record rest ih =>
    rw [cons_append, WellFormed, WellFormed, ih, and_assoc]
    rfl

theorem nextAfter_append {ids : Nat} {later : List Record} : nextAfter ids (records ++ later) = nextAfter (nextAfter ids records) later :=
  foldl_append

theorem replay_append {of : Nat → List Byte} {record : Record} : replay of (records ++ [record]) = record.apply (replay of records) := by
  rw [replay, foldl_append]
  rfl

theorem encode_append {record : Record} : encode (records ++ [record]) = encode records ++ record.encode := by
  rw [encode, flatMap_append, flatMap_singleton]
  rfl

theorem initial_written : Written .initial [] .initial :=
  ⟨rfl, trivial, rfl, rfl, Nat.zero_le _, fun nonempty => absurd rfl nonempty, fun _ => (ite_self ([] : List Byte)).symm⟩

theorem replay_blank {ids : Nat} {of : Nat → List Byte} (blank : Blank ids of)
    (valid : WellFormed ids records) : Blank (nextAfter ids records) (replay of records) := by
  induction records generalizing ids of with
  | nil => exact blank
  | cons record rest ih => exact ih (blank.apply valid.1) valid.2

section

variable (written : Written writer records contents)
include written

theorem Written.blank : Blank contents.ids (replay (fun _ => []) records) :=
  written.next ▸ replay_blank ⟨Nat.one_pos, rfl, fun _ _ => rfl⟩ written.valid

theorem Written.record {output : List Byte} {ids : Nat} {of : Nat → List Byte} (record : Record)
    (empty : writer.buffer = []) (valid : record.Valid contents.ids)
    (outputs : output = writer.output ++ record.encode) (next : ids = record.next contents.ids)
    (applied : of = record.apply contents.of) : Written ⟨[], writer.lastID, output, ids⟩ (records ++ [record]) ⟨ids, of⟩ := by
  have same : contents.of = replay (fun _ => []) records := by
    funext id
    rw [written.content id, empty, ite_self, append_nil]
  refine ⟨?_, ?_, rfl, ?_, Nat.zero_le _, fun nonempty => absurd rfl nonempty, fun id => ?_⟩
  · rw [outputs, written.output, encode_append]
  · exact wellFormed_append.mpr ⟨written.valid, written.next.symm ▸ valid, trivial⟩
  · rw [nextAfter_append, written.next, next]
    rfl
  · rw [replay_append, applied, same, ite_self, append_nil]

theorem flush_spec (small : contents.ids ≤ 2 ^ 31) :
    ∃ flushed, Written writer.flushBuffer flushed contents ∧ writer.flushBuffer.buffer = [] := by
  rw [flushBuffer]
  by_cases empty : writer.bufferCount = 0
  · rw [if_neg (not_not.mpr empty)]
    exact ⟨records, written, length_eq_zero_iff.mp empty⟩
  · have nonempty : writer.buffer ≠ [] := fun nothing => empty (congrArg List.length nothing)
    obtain ⟨positive, before⟩ := written.owner nonempty
    have bound : writer.buffer.length ≤ 4 * 4096 := written.bound
    rw [if_pos empty]
    refine ⟨records ++ [.block writer.lastID writer.buffer], ⟨?_, ?_, written.ids, ?_,
      Nat.zero_le _, fun nonempty => absurd rfl nonempty, fun id => ?_⟩, rfl⟩
    · rw [encode_append, ← written.output, Record.encode]
      simp only [append_assoc]
      rfl
    · refine wellFormed_append.mpr ⟨written.valid, ⟨positive, ?_, by omega, by omega⟩, trivial⟩
      exact written.next.symm ▸ before
    · rw [nextAfter_append, written.next]
      rfl
    · rw [replay_append, written.content id, Record.apply, ite_self, append_nil]
      by_cases same : id = writer.lastID
      · rw [if_pos same, same, update_self]
      · rw [if_neg same, update_of_ne same, append_nil]

theorem openChild_spec {os : Nat} (known : os < contents.ids) (small : contents.ids < 2 ^ 31) :
    ∃ recorded, Written (writer.openChild os).2 recorded ⟨contents.ids + 1, update contents.of contents.ids (contents.of os)⟩ := by
  obtain ⟨flushed, its, empty⟩ := flush_spec written small.le
  have wrapped : (contents.ids + 1) % 2 ^ 32 = contents.ids + 1 := by omega
  have record := its.record (.fork os contents.ids) empty ⟨known, rfl, small⟩ rfl rfl rfl
  refine ⟨flushed ++ [.fork os contents.ids], ?_⟩
  rw [TreeStreamWriter.openChild]
  simp only [its.ids, wrapped, empty]
  rw [append_assoc]
  exact record

theorem append_spec {os : Nat} {s : List Byte} (known : contents.Opened os) (small : s.length < 2 ^ 31) (few : contents.ids ≤ 2 ^ 31) :
    ∃ next recorded, writer.append os s = .ok next ∧ Written next recorded
      { contents with of := update contents.of os (contents.of os ++ s) } := by
  have size : s.length % 2 ^ 32 = s.length := Nat.mod_eq_of_lt (by omega)
  have ready : ∃ recorded, ∃ ready : TreeStreamWriter, (ready =
      if writer.bufferCount ≠ 0 ∧
          (os ≠ writer.lastID ∨ bufferSize < (s.length + writer.bufferCount) % 2 ^ 32) then
        writer.flushBuffer
      else writer) ∧ Written ready recorded contents ∧ (ready.bufferCount ≠ 0 →
        os = ready.lastID ∧ ready.bufferCount + s.length ≤ bufferSize) := by
    by_cases flush : writer.bufferCount ≠ 0 ∧ (os ≠ writer.lastID ∨ bufferSize < (s.length + writer.bufferCount) % 2 ^ 32)
    · obtain ⟨flushed, its, empty⟩ := flush_spec written few
      exact ⟨flushed, _, (if_pos flush).symm, its, fun nonempty => absurd (congrArg List.length empty) nonempty⟩
    · refine ⟨records, _, (if_neg flush).symm, written, fun nonempty => ?_⟩
      have fits := not_or.mp (fun tooMuch => flush ⟨nonempty, tooMuch⟩)
      have bound := written.bound
      have unwrapped : (s.length + writer.bufferCount) % 2 ^ 32 =
          s.length + writer.bufferCount := Nat.mod_eq_of_lt (by simp only [bufferSize] at bound; omega)
      exact ⟨not_not.mp fits.1, by omega⟩
  obtain ⟨recorded, ready, same, its, fits⟩ := ready
  rw [TreeStreamWriter.append, write, size, ← same, take_length]
  by_cases nonempty : ready.bufferCount ≠ 0
  · obtain ⟨owner, room⟩ := fits nonempty
    simp only [if_pos nonempty, if_neg (not_lt.mpr room)]
    refine ⟨_, recorded, rfl, its.output, its.valid, its.ids, its.next, ?_, fun _ => owner ▸ known, fun id => ?_⟩
    · rw [bufferCount, length_append]
      exact room
    · change update contents.of _ _ id = _ ++ if id = ready.lastID then ready.buffer ++ s else []
      by_cases own : id = os
      · rw [own, update_self, its.content os, if_pos owner, if_pos owner, append_assoc]
      · rw [update_of_ne own, its.content id, if_neg (owner ▸ own), if_neg (owner ▸ own)]
  · have empty : ready.buffer = [] := length_eq_zero_iff.mp (not_not.mp nonempty)
    simp only [if_neg nonempty]
    by_cases short : s.length < bufferSize
    · rw [if_pos short]
      refine ⟨_, recorded, rfl, its.output, its.valid, its.ids, its.next, short.le, fun _ => known, fun id => ?_⟩
      have content := its.content id
      rw [empty, ite_self, append_nil] at content
      change update contents.of _ _ id = _ ++ if id = os then s else []
      by_cases own : id = os
      · rw [own, update_self, if_pos rfl, ← own, content]
      · rw [update_of_ne own, if_neg own, content, append_nil]
    · rw [if_neg short]
      refine ⟨_, recorded ++ [.block os s], rfl, ?_⟩
      have record := its.record (.block os s) empty ⟨known.1, known.2, known.2.trans_le few, small⟩ rfl rfl rfl
      simp only [empty, its.ids, append_assoc]
      exact record

theorem readStream_spec {id : Nat} (known : contents.Opened id) (small : contents.ids ≤ 2 ^ 31) :
    writer.readStream id = .ok (contents.of id, writer.flushBuffer) := by
  obtain ⟨flushed, its, empty⟩ := flush_spec written small
  have parents : Parents flushed 1 [] := ⟨rfl, fun child positive less => by omega, fun _ _ => rfl⟩
  obtain ⟨roots, found, path, last⟩ := findRoots_spec (fun _ member => member) its.valid parents known.1 (its.next ▸ known.2)
  cases roots with
  | nil => cases last
  | cons root more =>
    obtain ⟨forked, path⟩ := isChain_cons_cons.mp path
    have blank : Blank 1 fun _ => [] := ⟨Nat.one_pos, rfl, fun _ _ => rfl⟩
    have read := readBlocks_spec its.valid blank path (.inr forked) rfl
    have end_ : (root :: more).getLast (cons_ne_nil _ _) = id := by
      exact Option.some.inj last
    have unknown : ¬ (id = 0 ∨ writer.ids ≤ id) := by
      rw [written.ids]
      exact not_or.mpr ⟨known.1.ne', not_le.mpr known.2⟩
    have content := its.content id
    rw [empty, ite_self, append_nil] at content
    rw [TreeStreamWriter.readStream, if_neg unknown]
    simp only [its.output, found, bind, Except.bind, pure, Except.pure]
    rw [read, end_, content]

theorem step_spec {event : Event} (known : event.Known contents) (small : event.size < 2 ^ 31)
    (few : (contents.apply event).ids ≤ 2 ^ 31) :
    ∃ next recorded, writer.step event = .ok next ∧ Written next recorded (contents.apply event) := by
  cases event with
  | openRoot =>
    have root : contents.of 0 = [] := by
      have unowned : (if 0 = writer.lastID then writer.buffer else []) = [] := by
        split
        · rename_i owner
          by_contra nonempty
          exact absurd owner (written.owner nonempty).1.ne
        · rfl
      rw [written.content 0, written.blank.2.1, unowned, append_nil]
    obtain ⟨recorded, its⟩ := openChild_spec written written.blank.1 few
    rw [root] at its
    exact ⟨_, recorded, rfl, its⟩
  | openChild os =>
    obtain ⟨recorded, its⟩ := openChild_spec written known.2 few
    exact ⟨_, recorded, rfl, its⟩
  | append os s => exact append_spec written known small few
  | flush =>
    obtain ⟨flushed, its, _⟩ := flush_spec written few
    exact ⟨_, flushed, rfl, its⟩
  | readStream id =>
    obtain ⟨flushed, its, _⟩ := flush_spec written few
    refine ⟨_, flushed, ?_, its⟩
    rw [step, readStream_spec written known few]
    rfl

end

end Writing

theorem ids_le_apply {contents : Contents} {event : Event} : contents.ids ≤ (contents.apply event).ids := by
  cases event with
  | openRoot => exact Nat.le_succ _
  | openChild os => exact Nat.le_succ _
  | append os s => exact le_rfl
  | flush => exact le_rfl
  | readStream id => exact le_rfl

theorem run_spec {events : List Event} (known : Known events) (fits : Fits events) :
    ∃ writer records, run events = .ok writer ∧ Written writer records (.after events) := by
  induction known with
  | nil => exact ⟨_, [], rfl, initial_written⟩
  | snoc events event known its ih =>
    have after : Contents.after (events ++ [event]) = (Contents.after events).apply event := by
      rw [Contents.after, foldl_append]
      rfl
    obtain ⟨small, few⟩ := fits
    rw [after] at few
    obtain ⟨writer, records, ran, written⟩ := ih ⟨fun other member => small other (mem_append_left _ member), ids_le_apply.trans few⟩
    obtain ⟨next, recorded, stepped, writes⟩ := step_spec written its (small event (by simp)) few
    refine ⟨next, recorded, ?_, after ▸ writes⟩
    rw [run] at ran
    rw [run, foldlM_append, ran]
    simp only [bind, Except.bind, foldlM_cons, foldlM_nil, stepped]
    rfl

/-- Every stream is read back after every sequence of events whose sizes and streams fit. -/
theorem round_trips_when_fits {events : List Event} (known : Known events) (fits : Fits events) :
    RoundTrips events := by
  obtain ⟨writer, records, ran, written⟩ := run_spec known fits
  exact ⟨writer, ran, fun id opened => ⟨_, readStream_spec written opened fits.2⟩⟩

def twoStreams : List Event :=
  [.openRoot, .append 1 [5#8], .openChild 1, .append 1 [6#8], .append 2 [7#8], .readStream 1]

theorem twoStreams_round_trip : RoundTrips twoStreams := by
  have opened : Known [.openRoot] := .snoc [] .openRoot .nil trivial
  have parent : Known [.openRoot, .append 1 [5#8], .openChild 1] :=
    .snoc [.openRoot, .append 1 [5#8]] _ (.snoc [.openRoot] _ opened ⟨by decide, by decide⟩)
      ⟨by decide, by decide⟩
  have child : Known [.openRoot, .append 1 [5#8], .openChild 1, .append 1 [6#8], .append 2 [7#8]] :=
    .snoc [.openRoot, .append 1 [5#8], .openChild 1, .append 1 [6#8]] _
      (.snoc _ (.append 1 [6#8]) parent ⟨by decide, by decide⟩) ⟨by decide, by decide⟩
  refine round_trips_when_fits (.snoc _ (.readStream 1) child ⟨by decide, by decide⟩)
    ⟨?_, by decide⟩
  simp [twoStreams, Event.size]

theorem readBlocks_zeros (n : Nat) (roots : List Nat) (out : List Byte) (different : roots.head? ≠ some 0) :
    readBlocks (List.replicate (8 * n) 0#8) roots out = out := by
  induction n with
  | zero =>
    unfold readBlocks
    rfl
  | succ n ih =>
    have zeros : List.replicate (8 * (n + 1)) (0#8) = (Record.block 0 []).encode ++ List.replicate (8 * n) 0#8 := by
      rfl
    rw [zeros, readBlock roots out (by decide) (by decide), if_neg different, ih]

theorem run_long {bytes : List Byte} (long : bytes.length = 2 ^ 31) :
    run [.openRoot, .append 1 bytes] = .ok ⟨[], 0, (Record.fork 0 1).encode ++ ((Record.fork 1 0).encode ++ bytes), 2⟩ := by
  have size : bytes.length % 2 ^ 32 = 2 ^ 31 := (Nat.mod_eq_of_lt (by omega)).trans long
  have all : bytes.take (2 ^ 31) = bytes := take_of_length_le (long ▸ le_rfl)
  have direct : ¬ 2 ^ 31 < bufferSize := by decide
  have empty : ¬ TreeStreamWriter.initial.openRoot.2.bufferCount ≠ 0 := by decide
  have written : TreeStreamWriter.initial.openRoot.2.append 1 bytes =
      .ok ⟨[], 0, (Record.fork 0 1).encode ++ ((Record.fork 1 0).encode ++ bytes), 2⟩ := by
    rw [TreeStreamWriter.append, write, size, all]
    rfl
  simp only [run, foldlM_cons, foldlM_nil, step, pure_bind, written]
  rfl

theorem readStream_long {bytes : List Byte} (nothing : readBlocks bytes [1] [] = []) :
    ∃ after, TreeStreamWriter.readStream
      ⟨[], 0, (Record.fork 0 1).encode ++ ((Record.fork 1 0).encode ++ bytes), 2⟩ 1 = .ok ([], after) := by
  have unflushed : ∀ output, flushBuffer ⟨[], 0, output, 2⟩ = ⟨[], 0, output, 2⟩ := fun _ => rfl
  have climbed : climb [] 2 0 [1] = .ok [1] := rfl
  rw [TreeStreamWriter.readStream, if_neg (fun wrong => by simp at wrong)]
  simp only [unflushed, readFork [] 1 (by decide : (0 : Nat) < 2 ^ 32) (by decide : 1 < 2 ^ 31), if_pos, length_nil, climbed]
  simp only [bind, Except.bind, pure, Except.pure, passFork [1] [] (by decide : (0 : Nat) < 2 ^ 32) (by decide : 1 < 2 ^ 31),
    passFork [1] [] (by decide : (1 : Nat) < 2 ^ 32) (by decide : 0 < 2 ^ 31)]
  simp [nothing]

def longWrite : List Event := [.openRoot, .append 1 (List.replicate (2 ^ 31) 0#8)]

/-- The number of bytes is read as the tag of a fork, and the zeros as empty blocks. -/
theorem longWrite_is_lost : Known longWrite ∧ ¬ RoundTrips longWrite := by
  refine ⟨.snoc [.openRoot] _ (.snoc [] .openRoot .nil trivial) ⟨by decide, by decide⟩, ?_⟩
  rintro ⟨writer, ran, reads⟩
  obtain ⟨after, read⟩ := reads 1 ⟨by decide, by decide⟩
  obtain rfl := Except.ok.inj ((run_long length_replicate).symm.trans ran)
  have zeros := readBlocks_zeros (2 ^ 28) [1] [] (by decide)
  have count : 8 * 2 ^ 28 = 2 ^ 31 := by decide
  rw [count] at zeros
  obtain ⟨_, lost⟩ := readStream_long zeros
  have content : ∀ bytes, (Contents.after [.openRoot, .append 1 bytes]).of 1 = bytes := fun _ => rfl
  rw [lost, longWrite, content] at read
  have none := congrArg List.length (Prod.mk.inj (Except.ok.inj read)).1
  rw [length_replicate, length_nil] at none
  cases none

end NeuroMerge.TreeStream
