import Mathlib.Algebra.Ring.Nat
import Mathlib.Algebra.Ring.Int.Defs
import NeuroMerge.Foundations.Outcome

/-!
# Symbolic files

`read`, `write` and `lseek` of the POSIX runtime, with offsets and counts of 64 bits.
A call on a file of the operating system is passed on to it and is not followed here.
-/

namespace NeuroMerge.Posix

abbrev maxFds : Nat := 32

inductive Errno where
  | ebadf
  | efault
  | einval
  | eio
  | eperm
  | erange
  | other
  deriving DecidableEq, Repr

inductive Fault where
  | assertion
  | outOfBounds
  | nullDereference
  | concreteFile
  deriving DecidableEq, Repr

/-- `exe_disk_file_t`; as many bytes are allocated as the size says. -/
structure ExeDiskFile (Byte : Type) where
  size : BitVec 32
  contents : Fin size.toNat → Byte

def eOpen : BitVec 32 := 1

/-- `exe_file_t`; `dfile` is null unless the file is symbolic. -/
structure ExeFile (File : Type) where
  fd : Int
  flags : BitVec 32
  off : BitVec 64
  dfile : Option File

/-- `exe_file_system_t`, with the files that its pointers lead to. -/
structure ExeFileSystem (File Byte : Type) where
  disk : File → ExeDiskFile Byte
  symStdout : Option File
  stdoutWrites : BitVec 32
  maxFailures : BitVec 32
  readFail : Option (BitVec 32)
  writeFail : Option (BitVec 32)

structure ExeSymEnv (File : Type) where
  fds : Fin maxFds → ExeFile File
  saveAllWrites : Bool

structure Process (File Byte : Type) where
  fs : ExeFileSystem File Byte
  env : ExeSymEnv File
  readCalls : BitVec 32
  writeCalls : BitVec 32
  errno : Option Errno
  warnings : List String

abbrev Buffer (Byte : Type) := Nat → Byte

/-- What a call returns and leaves behind; a null buffer stays null. -/
structure Result (File Byte : Type) where
  returned : BitVec 64
  buf : Option (Buffer Byte)
  process : Process File Byte

namespace ExeDiskFile

variable {Byte : Type} (file : ExeDiskFile Byte)

def Within (off count : BitVec 64) : Prop :=
  count = 0 ∨ 0 ≤ off.toInt ∧ off.toInt + count.toNat ≤ file.size.toNat

instance (off count : BitVec 64) : Decidable (file.Within off count) :=
  inferInstanceAs (Decidable (_ ∨ _))

def copyOut (off : BitVec 64) (buf : Buffer Byte) (count : BitVec 64) :
    Except Fault (Buffer Byte) :=
  if file.Within off count then
    pure fun i =>
      if within : i < count.toNat ∧ off.toNat + i < file.size.toNat then
        file.contents ⟨off.toNat + i, within.2⟩
      else buf i
  else throw .outOfBounds

/-- The bytes from a position on are taken from the buffer, as far as there are any. -/
def overwrite (off : Nat) (buf : Buffer Byte) (count : Nat) : ExeDiskFile Byte where
  size := file.size
  contents i := if off ≤ i ∧ i < off + count then buf (i - off) else file.contents i

def copyIn (off : BitVec 64) (buf : Buffer Byte) (count : BitVec 64) :
    Except Fault (ExeDiskFile Byte) :=
  if file.Within off count then pure (file.overwrite off.toNat buf count.toNat)
  else throw .outOfBounds

def store (off : BitVec 64) (buf : Buffer Byte) (count : BitVec 64) :
    Except Fault (ExeDiskFile Byte) :=
  if count ≠ 0 then file.copyIn off buf count else pure file

end ExeDiskFile

def ExeSymEnv.getFile {File : Type} (env : ExeSymEnv File) (fd : Int) : Option (Fin maxFds) :=
  if bounds : 0 ≤ fd ∧ fd < maxFds then
    let f : Fin maxFds := ⟨fd.toNat, by omega⟩
    if (env.fds f).flags &&& eOpen ≠ 0 then some f else none
  else none

namespace Process

variable {File Byte : Type} (p : Process File Byte)

def fail (errno : Errno) (buf : Option (Buffer Byte)) : Result File Byte :=
  ⟨-1, buf, { p with errno := some errno }⟩

def injectsFailure (failing : Option (BitVec 32)) (calls : BitVec 32) : Except Fault Bool :=
  if p.fs.maxFailures = 0 then pure false
  else
    match failing with
    | none => throw .nullDereference
    | some failing => pure (failing = calls)

def takeFailure : Process File Byte :=
  { p with fs := { p.fs with maxFailures := p.fs.maxFailures - 1 } }

def setOff (f : Fin maxFds) (off : BitVec 64) : Process File Byte :=
  { p with env :=
    { p.env with fds := Function.update p.env.fds f { p.env.fds f with off := off } } }

def setFile [DecidableEq File] (dfile : File) (file : ExeDiskFile Byte) : Process File Byte :=
  { p with fs := { p.fs with disk := Function.update p.fs.disk dfile file } }

def read (fd : Int) (buf : Option (Buffer Byte)) (count : BitVec 64) :
    Except Fault (Result File Byte) := do
  let p := { p with readCalls := p.readCalls + 1 }
  if count = 0 then return ⟨0, buf, p⟩
  let some bytes := buf | return p.fail .efault buf
  let some f := p.env.getFile fd | return p.fail .ebadf buf
  if ← p.injectsFailure p.fs.readFail p.readCalls then return p.takeFailure.fail .eio buf
  let file := p.env.fds f
  let some dfile := file.dfile | throw .concreteFile
  let size := (p.fs.disk dfile).size.setWidth 64
  if file.off.slt 0 then throw .assertion
  if size.slt file.off then return ⟨0, buf, p⟩
  let count := if size < file.off + count then size - file.off else count
  let bytes ← (p.fs.disk dfile).copyOut file.off bytes count
  return ⟨count, some bytes, p.setOff f (file.off + count)⟩

def kleeWarning (message : String) : Process File Byte :=
  { p with warnings := p.warnings ++ [message] }

def actualCount (file : ExeFile File) (size count : BitVec 64) : Except Fault (BitVec 64) :=
  if file.off + count ≤ size then pure count
  else if p.env.saveAllWrites then throw .assertion
  else if file.off.slt size then pure (size - file.off)
  else pure 0

def warnIgnored (count actualCount : BitVec 64) : Process File Byte :=
  if count ≠ actualCount then p.kleeWarning "write() ignores bytes.\n" else p

def countStdout [DecidableEq File] (dfile : File) (actualCount : BitVec 64) :
    Process File Byte :=
  if p.fs.symStdout = some dfile then
    { p with fs := { p.fs with stdoutWrites := p.fs.stdoutWrites + actualCount.setWidth 32 } }
  else p

def write [DecidableEq File] (fd : Int) (buf : Buffer Byte) (count : BitVec 64) :
    Except Fault (Result File Byte) := do
  let p := { p with writeCalls := p.writeCalls + 1 }
  let some f := p.env.getFile fd | return p.fail .ebadf (some buf)
  if ← p.injectsFailure p.fs.writeFail p.writeCalls then
    return p.takeFailure.fail .eio (some buf)
  let file := p.env.fds f
  let some dfile := file.dfile | throw .concreteFile
  let disk := p.fs.disk dfile
  let actualCount ← p.actualCount file (disk.size.setWidth 64) count
  let disk ← disk.store file.off buf actualCount
  let p := ((p.setFile dfile disk).warnIgnored count actualCount).countStdout dfile actualCount
  return ⟨count, some buf, p.setOff f (file.off + count)⟩

def fdLseek (fd : Int) (offset : BitVec 64) (whence : Int) : Except Fault (Result File Byte) := do
  let some f := p.env.getFile fd | return p.fail .ebadf none
  let file := p.env.fds f
  let some dfile := file.dfile | throw .concreteFile
  let newOff ←
    match whence with
    | 0 => pure offset
    | 1 => pure (file.off + offset)
    | 2 => pure ((p.fs.disk dfile).size.setWidth 64 + offset)
    | _ => return p.fail .einval none
  if newOff.slt 0 then return p.fail .einval none
  return ⟨newOff, none, p.setOff f newOff⟩

end Process

/-- A call of the program, with a buffer that is not null. -/
inductive Call (Byte : Type) where
  | read (fd : Int) (buf : Buffer Byte) (count : BitVec 64)
  | write (fd : Int) (buf : Buffer Byte) (count : BitVec 64)
  | lseek (fd : Int) (offset : BitVec 64) (whence : Int)

variable {File Byte : Type}

def Call.fd : Call Byte → Int
  | .read fd _ _ => fd
  | .write fd _ _ => fd
  | .lseek fd _ _ => fd

def Process.perform [DecidableEq File] (p : Process File Byte) :
    Call Byte → Except Fault (Result File Byte)
  | .read fd buf count => p.read fd (some buf) count
  | .write fd buf count => p.write fd buf count
  | .lseek fd offset whence => p.fdLseek fd offset whence

end NeuroMerge.Posix
