import Mathlib.Algebra.Ring.Nat
import Mathlib.Data.List.TakeWhile
import NeuroMerge.Foundations.ByteStream

/-!
# Test files

`KTest.cpp`: the inputs of a test case, and the file that they are kept in.
-/

namespace NeuroMerge.Basic

open ByteStream

/-- `overflow` is what is written past the end of a buffer. -/
inductive Fault where
  | failed
  | overflow
  deriving DecidableEq, Repr

/-- A string without its NUL. -/
abbrev CString := Bytes

structure KTestObject where
  name : CString
  bytes : Bytes
  deriving DecidableEq, Repr

/-- `numArgs` and `numObjects` are the lengths of the lists. -/
structure KTest where
  version : BitVec 32
  args : List CString
  symArgvs : BitVec 32
  symArgvLen : BitVec 32
  objects : List KTestObject
  deriving DecidableEq, Repr

def magic : Bytes := [0x4B, 0x54, 0x45, 0x53, 0x54]

/-- `BOUT_MAGIC`, for compatibility -/
def boutMagic : Bytes := [0x42, 0x4F, 0x55, 0x54, 0x0A]

def getCurrentVersion : BitVec 32 := 3

/-! ## Numbers and strings -/

def uint32Bytes (value : BitVec 32) : Bytes :=
  [(value >>> 24).setWidth 8, (value >>> 16).setWidth 8, (value >>> 8).setWidth 8, value.setWidth 8]

def readUint32 : Reader Fault (BitVec 32) := do
  let (data, read) ← fread .overflow 4 4 1
  if read ≠ 1 then throw .failed
  let byte i := (data.getD i 0).setWidth 32
  pure ((((byte 0 <<< 8 + byte 1) <<< 8 + byte 2) <<< 8) + byte 3)

def writeUint32 (value : BitVec 32) : Writer Unit := do
  let written ← fwrite (uint32Bytes value) 1 4
  if written ≠ 4 then failure

def stringOf (buffer : Bytes) : CString := buffer.takeWhile (· ≠ 0)

def readString : Reader Fault CString := do
  let len ← readUint32
  let capacity := (len + 1).toNat
  let (data, read) ← fread .overflow capacity len.toNat 1
  if read ≠ 1 then throw .failed
  -- the NUL at the end
  if capacity ≤ len.toNat then throw .overflow
  pure (stringOf data)

def writeString (value : CString) : Writer Unit := do
  let len : BitVec 32 := .ofNat 32 value.length
  writeUint32 len
  let written ← fwrite value len.toNat 1
  if written ≠ 1 then failure

/-! ## Files -/

def checkHeader : Reader Fault Unit := do
  let (header, read) ← fread .overflow 5 5 1
  if read ≠ 1 then throw .failed
  if header ≠ magic ∧ header ≠ boutMagic then throw .failed

def readObject : Reader Fault KTestObject := do
  let name ← readString
  let numBytes ← readUint32
  let (bytes, read) ← fread .overflow numBytes.toNat numBytes.toNat 1
  if read ≠ 1 then throw .failed
  pure ⟨name, bytes⟩

def writeObject (o : KTestObject) : Writer Unit := do
  writeString o.name
  let numBytes : BitVec 32 := .ofNat 32 o.bytes.length
  writeUint32 numBytes
  let written ← fwrite o.bytes numBytes.toNat 1
  if written ≠ 1 then failure

def readKTest : Reader Fault KTest := do
  checkHeader
  let version ← readUint32
  if getCurrentVersion < version then throw .failed
  let numArgs ← readUint32
  let args ← times readString numArgs.toNat
  let symArgvs ← if 2#32 ≤ version then readUint32 else pure 0
  let symArgvLen ← if 2#32 ≤ version then readUint32 else pure 0
  let numObjects ← readUint32
  let objects ← times readObject numObjects.toNat
  pure ⟨version, args, symArgvs, symArgvLen, objects⟩

def writeKTest (bo : KTest) : Writer Unit := do
  let written ← fwrite magic 5 1
  if written ≠ 1 then failure
  writeUint32 getCurrentVersion
  writeUint32 (.ofNat 32 bo.args.length)
  bo.args.forM writeString
  writeUint32 bo.symArgvs
  writeUint32 bo.symArgvLen
  writeUint32 (.ofNat 32 bo.objects.length)
  bo.objects.forM writeObject

def kTestFromFile (file : Bytes) : Except Fault KTest :=
  (readKTest file).map Prod.fst

def kTestToFile (bo : KTest) : Option Bytes :=
  (writeKTest bo []).map Prod.snd

/-!
## Test files are read back

A test comes back from its file if none of its strings and contents is empty:
the writer takes an element without bytes for a failure. A string of the greatest
length is written, but the buffer that it is read into has no room for it.
-/


/-- A string as long as `unsigned` allows, and without NUL. -/
structure ValidString (value : CString) : Prop where
  short : value.length < 2 ^ 32
  noNul : 0 ∉ value

structure KTestObject.Valid (o : KTestObject) : Prop where
  name : ValidString o.name
  short : o.bytes.length < 2 ^ 32

structure KTest.Valid (bo : KTest) : Prop where
  numArgs : bo.args.length < 2 ^ 32
  args : ∀ arg ∈ bo.args, ValidString arg
  numObjects : bo.objects.length < 2 ^ 32
  objects : ∀ o ∈ bo.objects, o.Valid

def RoundTrips (bo : KTest) : Prop :=
  ∃ file, kTestToFile bo = some file ∧
    kTestFromFile file = .ok { bo with version := getCurrentVersion }

def Kept (value : CString) : Prop := value ≠ [] ∧ value.length ≠ 2 ^ 32 - 1

/-! ## Numbers -/

theorem writes_uint32 (value : BitVec 32) : Writes (writeUint32 value) (uint32Bytes value) () :=
  fun _ => rfl

theorem uint32_bytes (value : BitVec 32) :
    (((((value >>> 24).setWidth 8).setWidth 32 <<< 8 +
      ((value >>> 16).setWidth 8).setWidth 32) <<< 8 +
        ((value >>> 8).setWidth 8).setWidth 32) <<< 8) + (value.setWidth 8).setWidth 32 = value := by
  refine BitVec.eq_of_toNat_eq ?_
  simp only [BitVec.toNat_add, BitVec.toNat_shiftLeft, BitVec.toNat_setWidth,
    BitVec.toNat_ushiftRight, Nat.shiftLeft_eq, Nat.shiftRight_eq_div_pow]
  omega

theorem reads_uint32 (value : BitVec 32) : Reads readUint32 (uint32Bytes value) value := by
  intro rest
  have data : Reads (fread Fault.overflow 4 4 1) (uint32Bytes value) (uint32Bytes value, 1) :=
    fread_whole (uint32Bytes value) nofun (Nat.le_refl 4)
  rw [readUint32, data.bind_apply]
  exact congrArg (fun value => Except.ok (value, rest)) (uint32_bytes value)

theorem toNat_length {α : Type} {values : List α} (short : values.length < 2 ^ 32) :
    (BitVec.ofNat 32 values.length).toNat = values.length := by
  rw [BitVec.toNat_ofNat, Nat.mod_eq_of_lt short]

/-! ## Strings -/

section Strings

variable {value : CString}

def stringBytes (value : CString) : Bytes := uint32Bytes (.ofNat 32 value.length) ++ value

theorem writes_string (valid : ValidString value) (some : value ≠ []) : Writes (writeString value) (stringBytes value) () := by
  rw [writeString, stringBytes, toNat_length valid.short]
  exact (writes_uint32 _).bind ((fwrite_whole value some).last fun _ => rfl)

theorem refuses_empty : Refuses (writeString []) :=
  Refuses.bind_right fun _ _ => rfl

theorem stringOf_noNul (valid : ValidString value) : stringOf value = value := by
  rw [stringOf, List.takeWhile_eq_self_iff]
  intro byte member
  have notNul : byte ≠ 0 := fun nul => valid.noNul (nul ▸ member)
  simpa using notNul

theorem reads_string (valid : ValidString value) (kept : Kept value) : Reads readString (stringBytes value) value := by
  intro rest
  have size := toNat_length valid.short
  have room : (BitVec.ofNat 32 value.length + 1).toNat = value.length + 1 := by
    have notLongest := kept.2
    rw [BitVec.toNat_add, size]
    exact Nat.mod_eq_of_lt (show value.length + 1 < 2 ^ 32 by omega)
  have data : Reads (fread Fault.overflow (value.length + 1) value.length 1) value (value, 1) := fread_whole value kept.1 (Nat.le_succ _)
  rw [readString, stringBytes, List.append_assoc, (reads_uint32 _).bind_apply]
  rw [room, size, data.bind_apply]
  have kept : (if value.length + 1 ≤ value.length then throw Fault.overflow
      else pure (stringOf value) : Reader Fault CString) rest = .ok (value, rest) := by
    rw [if_neg (by omega), stringOf_noNul valid]
    rfl
  exact kept

theorem raises_longest (longest : value.length = 2 ^ 32 - 1) : Raises readString (stringBytes value) .overflow := by
  intro rest
  have size := toNat_length (show value.length < 2 ^ 32 by omega)
  have room : (BitVec.ofNat 32 value.length + 1).toNat = 0 := by
    rw [BitVec.toNat_add, size, longest]
    rfl
  rw [readString, stringBytes, List.append_assoc, (reads_uint32 _).bind_apply]
  rw [room, size]
  have overflows : fread Fault.overflow 0 value.length 1 (value ++ rest) = .error .overflow := by
    rw [fread, if_neg (by omega)]
    rw [Nat.mul_one, List.take_left, if_pos (by omega)]
  change (fread Fault.overflow 0 value.length 1 (value ++ rest)).bind _ = _
  rw [overflows]
  rfl

end Strings

/-! ## Objects -/

section Objects

variable {o : KTestObject}

def objectBytes (o : KTestObject) : Bytes :=
  stringBytes o.name ++ (uint32Bytes (.ofNat 32 o.bytes.length) ++ o.bytes)

theorem writes_object (valid : o.Valid) (someName : o.name ≠ []) (someBytes : o.bytes ≠ []) :
    Writes (writeObject o) (objectBytes o) () := by
  have contents : Writes (fwrite o.bytes (BitVec.ofNat 32 o.bytes.length).toNat 1) o.bytes 1 := by
    rw [toNat_length valid.short]
    exact fwrite_whole o.bytes someBytes
  exact (writes_string valid.name someName).bind ((writes_uint32 _).bind (contents.last fun _ => rfl))

theorem refuses_object (empty : o.name = [] ∨ o.bytes = []) : Refuses (writeObject o) := by
  obtain ⟨name, bytes⟩ := o
  obtain rfl | rfl := empty
  · exact refuses_empty.bind_left
  · exact Refuses.bind_right fun _ => Refuses.bind_right fun _ _ => rfl

theorem reads_object (valid : o.Valid) (kept : Kept o.name) (someBytes : o.bytes ≠ []) : Reads readObject (objectBytes o) o := by
  intro rest
  have data : Reads (fread Fault.overflow o.bytes.length o.bytes.length 1) o.bytes (o.bytes, 1) :=
    fread_whole o.bytes someBytes (Nat.le_refl _)
  rw [readObject, objectBytes, List.append_assoc, (reads_string valid.name kept).bind_apply,
    List.append_assoc, (reads_uint32 _).bind_apply, toNat_length valid.short, data.bind_apply]
  rfl

theorem raises_object (longest : o.name.length = 2 ^ 32 - 1) : Raises readObject (objectBytes o) .overflow :=
  (raises_longest longest).bind_left.append _

end Objects

/-! ## Files -/

section Files

variable {bo : KTest}

theorem reads_header : Reads checkHeader magic () := by
  intro rest
  have data : Reads (fread Fault.overflow 5 5 1) magic (magic, 1) := fread_whole magic nofun (Nat.le_refl 5)
  rw [checkHeader, data.bind_apply]
  rfl

def countBytes {α : Type} (values : List α) : Bytes := uint32Bytes (.ofNat 32 values.length)

def fileBytes (bo : KTest) : Bytes :=
  magic ++ (uint32Bytes getCurrentVersion ++ (countBytes bo.args ++ (bo.args.flatMap stringBytes ++
    (uint32Bytes bo.symArgvs ++ (uint32Bytes bo.symArgvLen ++ (countBytes bo.objects ++
      bo.objects.flatMap objectBytes))))))

theorem writes_file (valid : bo.Valid) (args : ∀ arg ∈ bo.args, arg ≠ [])
    (objects : ∀ o ∈ bo.objects, o.name ≠ [] ∧ o.bytes ≠ []) : Writes (writeKTest bo) (fileBytes bo) () := by
  have header : Writes (fwrite magic 5 1) magic 1 := fwrite_whole magic nofun
  have writesArgs := Writes.forM bo.args fun arg member =>
    writes_string (valid.args arg member) (args arg member)
  have writesObjects := Writes.forM bo.objects fun o member =>
    writes_object (valid.objects o member) (objects o member).1 (objects o member).2
  exact header.bind ((writes_uint32 _).bind ((writes_uint32 _).bind (writesArgs.bind
    ((writes_uint32 _).bind ((writes_uint32 _).bind ((writes_uint32 _).bind writesObjects))))))

theorem refuses_file (empty : (∃ arg ∈ bo.args, arg = []) ∨ ∃ o ∈ bo.objects, o.name = [] ∨ o.bytes = []) : Refuses (writeKTest bo) := by
  have header : Writes (fwrite magic 5 1) magic 1 := fwrite_whole magic nofun
  refine Refuses.after header (Refuses.after (writes_uint32 _) (Refuses.after (writes_uint32 _) ?_))
  obtain ⟨arg, member, rfl⟩ | ⟨o, member, empty⟩ := empty
  · exact (Refuses.forM member refuses_empty).bind_left
  · exact Refuses.bind_right fun _ => Refuses.after (writes_uint32 _)
      (Refuses.after (writes_uint32 _) (Refuses.after (writes_uint32 _) (Refuses.forM member (refuses_object empty))))

theorem reads_args (valid : bo.Valid) (args : ∀ arg ∈ bo.args, Kept arg) :
    Reads (times readString (BitVec.ofNat 32 bo.args.length).toNat) (bo.args.flatMap stringBytes) bo.args := by
  rw [toNat_length valid.numArgs]
  exact Reads.times bo.args fun arg member =>
    reads_string (valid.args arg member) (args arg member)

theorem reads_file (valid : bo.Valid) (args : ∀ arg ∈ bo.args, Kept arg) (objects : ∀ o ∈ bo.objects, Kept o.name ∧ o.bytes ≠ []) :
    Reads readKTest (fileBytes bo) { bo with version := getCurrentVersion } := by
  have readsObjects : Reads (times readObject (BitVec.ofNat 32 bo.objects.length).toNat) (bo.objects.flatMap objectBytes) bo.objects := by
    rw [toNat_length valid.numObjects]
    exact Reads.times bo.objects fun o member =>
      reads_object (valid.objects o member) (objects o member).1 (objects o member).2
  exact reads_header.bind ((reads_uint32 _).bind ((reads_uint32 _).bind
    ((reads_args valid args).bind ((reads_uint32 _).bind ((reads_uint32 _).bind ((reads_uint32 _).bind (readsObjects.yield
        (KTest.mk getCurrentVersion bo.args bo.symArgvs bo.symArgvLen))))))))

theorem raises_file (valid : bo.Valid) (args : ∀ arg ∈ bo.args, arg ≠ []) (objects : ∀ o ∈ bo.objects, o.name ≠ [] ∧ o.bytes ≠ [])
    (longest : (∃ arg ∈ bo.args, arg.length = 2 ^ 32 - 1) ∨
      ∃ o ∈ bo.objects, o.name.length = 2 ^ 32 - 1) : Raises readKTest (fileBytes bo) .overflow := by
  refine Raises.bind_right reads_header (Raises.bind_right (reads_uint32 _) (Raises.bind_right (reads_uint32 _) ?_))
  by_cases longArg : ∃ arg ∈ bo.args, arg.length = 2 ^ 32 - 1
  · obtain ⟨arg, member, long⟩ := longArg
    have raises : Raises (times readString (BitVec.ofNat 32 bo.args.length).toNat) (bo.args.flatMap stringBytes) .overflow := by
      rw [toNat_length valid.numArgs]
      refine Raises.times bo.args (fun arg member => ?_) ⟨arg, member, raises_longest long⟩
      by_cases long : arg.length = 2 ^ 32 - 1
      · exact .inr (raises_longest long)
      · exact .inl (reads_string (valid.args arg member) ⟨args arg member, long⟩)
    exact raises.bind_left.append _
  · obtain ⟨o, member, long⟩ := longest.resolve_left longArg
    have kept : ∀ arg ∈ bo.args, Kept arg := fun arg member =>
      ⟨args arg member, fun long => longArg ⟨arg, member, long⟩⟩
    have raises : Raises (times readObject (BitVec.ofNat 32 bo.objects.length).toNat) (bo.objects.flatMap objectBytes) .overflow := by
      rw [toNat_length valid.numObjects]
      refine Raises.times bo.objects (fun o member => ?_) ⟨o, member, raises_object long⟩
      by_cases long : o.name.length = 2 ^ 32 - 1
      · exact .inr (raises_object long)
      · exact .inl (reads_object (valid.objects o member) ⟨(objects o member).1, long⟩ (objects o member).2)
    exact Raises.bind_right (reads_args valid kept) (Raises.bind_right (reads_uint32 _)
      (Raises.bind_right (reads_uint32 _) (Raises.bind_right (reads_uint32 _) raises.bind_left)))

def sampleTest : KTest := ⟨3, [[0x61], [0x62, 0x63]], 1, 2, [⟨[0x78], [0x00, 0xFF]⟩]⟩

theorem sampleTest_valid : sampleTest.Valid where
  numArgs := by decide
  args := by
    intro arg member
    obtain rfl | rfl := List.mem_pair.mp member
    · exact ⟨by decide, by decide⟩
    · exact ⟨by decide, by decide⟩
  numObjects := by decide
  objects := by
    intro o member
    obtain rfl := List.mem_singleton.mp member
    exact ⟨⟨by decide, by decide⟩, by decide⟩

theorem roundTrips_iff (valid : bo.Valid) :
    RoundTrips bo ↔ (∀ arg ∈ bo.args, Kept arg) ∧ ∀ o ∈ bo.objects, Kept o.name ∧ o.bytes ≠ [] := by
  by_cases empty : (∃ arg ∈ bo.args, arg = []) ∨ ∃ o ∈ bo.objects, o.name = [] ∨ o.bytes = []
  · refine iff_of_false (fun ⟨file, written, _⟩ => ?_) (fun ⟨args, objects⟩ => ?_)
    · rw [kTestToFile, refuses_file empty []] at written
      cases written
    · obtain ⟨arg, member, isEmpty⟩ | ⟨o, member, isEmpty | isEmpty⟩ := empty
      · exact (args arg member).1 isEmpty
      · exact (objects o member).1.1 isEmpty
      · exact (objects o member).2 isEmpty
  · obtain ⟨noEmptyArg, noEmptyObject⟩ := not_or.mp empty
    have args : ∀ arg ∈ bo.args, arg ≠ [] := fun arg member isEmpty =>
      noEmptyArg ⟨arg, member, isEmpty⟩
    have objects : ∀ o ∈ bo.objects, o.name ≠ [] ∧ o.bytes ≠ [] := fun o member =>
      not_or.mp fun isEmpty => noEmptyObject ⟨o, member, isEmpty⟩
    have written : kTestToFile bo = some (fileBytes bo) := by
      rw [kTestToFile, writes_file valid args objects []]
      rfl
    constructor
    · intro ⟨file, writtenFile, read⟩
      obtain rfl : fileBytes bo = file := Option.some.inj (written.symm.trans writtenFile)
      by_contra notKept
      have longest : (∃ arg ∈ bo.args, arg.length = 2 ^ 32 - 1) ∨
          ∃ o ∈ bo.objects, o.name.length = 2 ^ 32 - 1 := by
        by_contra none
        obtain ⟨noLongArg, noLongName⟩ := not_or.mp none
        refine notKept ⟨fun arg member => ⟨args arg member, fun long => ?_⟩,
          fun o member => ⟨⟨(objects o member).1, fun long => ?_⟩, (objects o member).2⟩⟩
        · exact noLongArg ⟨arg, member, long⟩
        · exact noLongName ⟨o, member, long⟩
      have overflows := raises_file valid args objects longest []
      rw [List.append_nil] at overflows
      rw [kTestFromFile, overflows] at read
      cases read
    · intro ⟨keptArgs, keptObjects⟩
      refine ⟨fileBytes bo, written, ?_⟩
      have read := reads_file valid keptArgs keptObjects []
      rw [List.append_nil] at read
      rw [kTestFromFile, read]
      rfl

theorem sampleTest_roundTrips : RoundTrips sampleTest :=
  (roundTrips_iff sampleTest_valid).mpr ⟨by simp [sampleTest, Kept], by simp [sampleTest, Kept]⟩

theorem emptyArgument_fails : ¬ ∀ bo : KTest, bo.Valid → RoundTrips bo := by
  intro claim
  have emptyString : ValidString [] := ⟨by decide, by decide⟩
  obtain ⟨file, written, -⟩ := claim ⟨3, [[]], 0, 0, []⟩
    ⟨by decide, fun arg member => List.mem_singleton.mp member ▸ emptyString, by decide, nofun⟩
  have failed : kTestToFile ⟨3, [[]], 0, 0, []⟩ = none := by decide
  cases written

end Files

end NeuroMerge.Basic
