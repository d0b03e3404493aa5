import NeuroMerge.Foundations.Fuel
import NeuroMerge.Posix.SymbolicFiles

/-!
# The file law

What a program may expect of files whose size never changes: positions are natural
numbers, and a byte is the one that has been written last. The symbolic files behave
like this as long as no position reaches beyond what its type holds.
-/

namespace NeuroMerge.Posix

open BitVec hiding not_not not_or

variable {File Byte : Type}

structure Write (File Byte : Type) where
  file : File
  off : Nat
  count : Nat
  bytes : Buffer Byte

/-- What a program knows: where its descriptors are, and its writes, the last one first. -/
structure View (File Byte : Type) where
  offset : Fin maxFds → Nat
  writes : List (Write File Byte)

section FileLaw

variable [DecidableEq File] (disk : File → ExeDiskFile Byte)

/-- The byte that has been written last, or the one that was there at first. -/
def byteAt (file : File) (i : Fin (disk file).size.toNat) : List (Write File Byte) → Byte
  | [] => (disk file).contents i
  | write :: earlier =>
    if write.file = file ∧ write.off ≤ i ∧ i < write.off + write.count then
      write.bytes (i - write.off)
    else byteAt file i earlier

namespace View

variable (view : View File Byte)

def advance (f : Fin maxFds) (offset : Nat) : View File Byte :=
  { view with offset := Function.update view.offset f offset }

def base (f : Fin maxFds) (file : File) : Int → Option Int
  | 0 => some 0
  | 1 => some (view.offset f)
  | 2 => some (disk file).size.toNat
  | _ => none

/-- What a call on the descriptor of a file returns, what the buffer holds afterwards, and
what the program knows then. -/
def expect (f : Fin maxFds) (file : File) :
    Call Byte → Int × Option (Buffer Byte) × View File Byte
  | .read _ buf count =>
    let n := min count.toNat ((disk file).size.toNat - view.offset f)
    let buf i :=
      if within : i < n ∧ view.offset f + i < (disk file).size.toNat then
        byteAt disk file ⟨view.offset f + i, within.2⟩ view.writes
      else buf i
    (n, some buf, view.advance f (view.offset f + n))
  | .write _ buf count =>
    let write := ⟨file, view.offset f, count.toNat, buf⟩
    (count.toNat, some buf,
      { view.advance f (view.offset f + count.toNat) with writes := write :: view.writes })
  | .lseek _ offset whence =>
    match view.base disk f file whence with
    | some base =>
      let target := base + offset.toInt
      if 0 ≤ target ∧ target < 2 ^ 63 then (target, none, view.advance f target.toNat)
      else (-1, none, view)
    | none => (-1, none, view)

def Fits (f : Fin maxFds) (file : File) : Call Byte → Prop
  | .read _ _ count => count = 0 ∨ (disk file).size.toNat < view.offset f ∨
      view.offset f + count.toNat < 2 ^ 64
  | .write _ _ count => view.offset f + count.toNat < 2 ^ 63
  | .lseek _ _ _ => True

theorem expect_read_nothing {fd : Int} {f : Fin maxFds} {file : File} {buf : Buffer Byte}
    {count : BitVec 64} (nothing : count = 0 ∨ (disk file).size.toNat < view.offset f) :
    view.expect disk f file (.read fd buf count) = (0, some buf, view) := by
  have none : min count.toNat ((disk file).size.toNat - view.offset f) = 0 := by
    cases nothing with
    | inl zero => simp [zero]
    | inr past => omega
  simp [expect, none, advance]

end View

end FileLaw

namespace Process

def Opened (p : Process File Byte) (fd : Int) (f : Fin maxFds) (file : File) : Prop :=
  p.env.getFile fd = some f ∧ (p.env.fds f).dfile = some file

structure Valid (p : Process File Byte) : Prop where
  saveAllWrites : p.env.saveAllWrites = false
  maxFailures : p.fs.maxFailures = 0
  off : ∀ f, (p.env.fds f).dfile ≠ none → 0 ≤ (p.env.fds f).off.toInt

def view (p : Process File Byte) : View File Byte :=
  ⟨fun f => (p.env.fds f).off.toNat, []⟩

theorem setOff_fds {p : Process File Byte} {f : Fin maxFds} (g : Fin maxFds) (off : BitVec 64) :
    (p.setOff f off).env.fds g = { p.env.fds g with off := if g = f then off else (p.env.fds g).off } := by
  by_cases here : g = f
  · subst here
    simp [setOff]
  · simp [setOff, here]

def clipped (p : Process File Byte) (f : Fin maxFds) (file : File) (count : BitVec 64) :
    BitVec 64 :=
  let size := (p.fs.disk file).size.setWidth 64
  if size < (p.env.fds f).off + count then size - (p.env.fds f).off else count

structure Located (p : Process File Byte) (f : Fin maxFds) (file : File) (offset size : Nat) :
    Prop where
  dfile : (p.env.fds f).dfile = some file
  off : (p.env.fds f).off.toNat = offset
  bounded : offset < 2 ^ 63
  size : (p.fs.disk file).size.toNat = size

namespace Located

variable {p : Process File Byte} {f : Fin maxFds} {file : File} {offset size : Nat}

section

variable (located : Located p f file offset size)
include located

theorem off_toInt : (p.env.fds f).off.toInt = offset := by
  have bounded := located.bounded
  rw [toInt_eq_toNat_of_lt (by rw [located.off]; omega), located.off]

theorem not_negative : (p.env.fds f).off.slt 0 = false := by
  rw [slt_eq_decide, located.off_toInt, ofNat_eq_ofNat, toInt_zero]
  simp

theorem size_lt : size < 2 ^ 32 :=
  located.size ▸ (p.fs.disk file).size.isLt

theorem size_toNat : ((p.fs.disk file).size.setWidth 64).toNat = size := by
  have := located.size_lt
  rw [toNat_setWidth, located.size, Nat.mod_eq_of_lt (by omega)]

theorem size_toInt : ((p.fs.disk file).size.setWidth 64).toInt = size := by
  have := located.size_lt
  rw [toInt_eq_toNat_of_lt (by rw [located.size_toNat]; omega), located.size_toNat]

theorem slt_off_iff : ((p.fs.disk file).size.setWidth 64).slt (p.env.fds f).off = true ↔ size < offset := by
  rw [slt_iff_toInt_lt, located.size_toInt, located.off_toInt]
  omega

theorem off_slt_iff : (p.env.fds f).off.slt ((p.fs.disk file).size.setWidth 64) = true ↔ offset < size := by
  rw [slt_iff_toInt_lt, located.size_toInt, located.off_toInt]
  omega

theorem add_toNat (count : BitVec 64) : ((p.env.fds f).off + count).toNat = (offset + count.toNat) % 2 ^ 64 := by
  rw [toNat_add, located.off]

theorem left_toNat (within : offset ≤ size) : ((p.fs.disk file).size.setWidth 64 - (p.env.fds f).off).toNat = size - offset := by
  have := located.size_lt
  rw [toNat_sub, located.size_toNat, located.off]
  omega

theorem clipped_toNat {count : BitVec 64} (within : offset ≤ size) (fits : offset + count.toNat < 2 ^ 64) :
    (p.clipped f file count).toNat = min count.toNat (size - offset) := by
  rw [clipped]
  simp only [lt_def, located.size_toNat, located.add_toNat, Nat.mod_eq_of_lt fits]
  split
  · rw [located.left_toNat within]
    omega
  · omega

theorem actualCount_run (count : BitVec 64) (saveAllWrites : p.env.saveAllWrites = false) (fits : offset + count.toNat < 2 ^ 64) :
    ∃ n : BitVec 64, n.toNat = min count.toNat (size - offset) ∧
      p.actualCount (p.env.fds f) ((p.fs.disk file).size.setWidth 64) count = .ok n := by
  rw [actualCount, saveAllWrites]
  simp only [le_def, located.size_toNat, located.add_toNat, Nat.mod_eq_of_lt fits, located.off_slt_iff]
  split
  · exact ⟨count, by omega, rfl⟩
  · rw [if_neg Bool.false_ne_true]
    split
    · refine ⟨_, ?_, rfl⟩
      rw [located.left_toNat (by omega)]
      omega
    · refine ⟨0, ?_, rfl⟩
      rw [ofNat_eq_ofNat, toNat_zero]
      omega

theorem stored {n : BitVec 64} (count : Nat) (buf : Buffer Byte) (isCount : n.toNat = min count (size - offset)) :
    (p.fs.disk file).store (p.env.fds f).off buf n = .ok ((p.fs.disk file).overwrite offset buf count) := by
  have inside (i : Fin (p.fs.disk file).size.toNat) : (offset ≤ i ∧ i < offset + n.toNat) ↔ offset ≤ i ∧ i < offset + count := by
    have size := located.size
    omega
  by_cases nonzero : n ≠ 0
  · have positive : n.toNat ≠ 0 := fun zero => nonzero (eq_of_toNat_eq zero)
    have within : (p.fs.disk file).Within (p.env.fds f).off n := by
      right
      rw [located.off_toInt, located.size]
      omega
    rw [ExeDiskFile.store, if_pos nonzero, ExeDiskFile.copyIn, if_pos within]
    simp only [ExeDiskFile.overwrite, located.off, inside]
    rfl
  · rw [ExeDiskFile.store, if_neg nonzero]
    rw [Decidable.not_not] at nonzero
    have outside (i : Fin (p.fs.disk file).size.toNat) : ¬ (offset ≤ i ∧ i < offset + count) := by
      rw [← inside, nonzero, ofNat_eq_ofNat, toNat_zero]
      omega
    simp only [ExeDiskFile.overwrite, outside]
    rfl

end

end Located

variable [DecidableEq File]

structure Agrees (p₀ p : Process File Byte) (view : View File Byte) : Prop where
  saveAllWrites : p.env.saveAllWrites = false
  maxFailures : p.fs.maxFailures = 0
  flags : ∀ f, (p.env.fds f).flags = (p₀.env.fds f).flags
  dfile : ∀ f, (p.env.fds f).dfile = (p₀.env.fds f).dfile
  off : ∀ f, (p.env.fds f).dfile ≠ none → (p.env.fds f).off.toInt = view.offset f
  disk : ∀ file, p.fs.disk file =
    ⟨(p₀.fs.disk file).size, fun i => byteAt p₀.fs.disk file i view.writes⟩

structure Meets (p₀ : Process File Byte) (result : Result File Byte)
    (expected : Int × Option (Buffer Byte) × View File Byte) : Prop where
  returned : result.returned.toInt = expected.1
  buf : result.buf = expected.2.1
  agrees : Agrees p₀ result.process expected.2.2

/-- Every call returns what the program expects, and leaves the files and offsets so. -/
def Obeys (p₀ : Process File Byte) : Process File Byte → View File Byte → List (Call Byte) → Prop
  | _, _, [] => True
  | p, view, call :: calls => ∀ f file, p₀.Opened call.fd f file →
      ∃ result, p.perform call = .ok result ∧ Meets p₀ result (view.expect p₀.fs.disk f file call) ∧
        Obeys p₀ result.process (view.expect p₀.fs.disk f file call).2.2 calls

def Fit (p₀ : Process File Byte) : View File Byte → List (Call Byte) → Prop
  | _, [] => True
  | view, call :: calls => ∀ f file, p₀.Opened call.fd f file →
      view.Fits p₀.fs.disk f file call ∧ Fit p₀ (view.expect p₀.fs.disk f file call).2.2 calls

variable {p₀ p p' : Process File Byte} {view : View File Byte} {fd : Int} {f : Fin maxFds}
  {file : File} {buf : Buffer Byte} {count : BitVec 64}

namespace Agrees

theorem refl (valid : p.Valid) : Agrees p p p.view where
  saveAllWrites := valid.saveAllWrites
  maxFailures := valid.maxFailures
  flags _ := rfl
  dfile _ := rfl
  off g symbolic := by
    have notNegative := valid.off g symbolic
    rw [toInt_eq_toNat_cond] at notNegative ⊢
    split
    · rfl
    · rename_i negative
      omega
  disk _ := rfl

section

variable (agrees : Agrees p₀ p view)
include agrees

theorem congr (env : p'.env = p.env) (disk : p'.fs.disk = p.fs.disk)
    (maxFailures : p'.fs.maxFailures = p.fs.maxFailures) : Agrees p₀ p' view where
  saveAllWrites := env ▸ agrees.saveAllWrites
  maxFailures := maxFailures.trans agrees.maxFailures
  flags := env ▸ agrees.flags
  dfile := env ▸ agrees.dfile
  off := env ▸ agrees.off
  disk := disk ▸ agrees.disk

theorem setOff {off : BitVec 64} {offset : Nat} (same : off.toInt = offset) : Agrees p₀ (p.setOff f off) (view.advance f offset) where
  saveAllWrites := agrees.saveAllWrites
  maxFailures := agrees.maxFailures
  flags g := by simp [setOff_fds, agrees.flags]
  dfile g := by simp [setOff_fds, agrees.dfile]
  off g symbolic := by
    rw [setOff_fds] at symbolic ⊢
    by_cases here : g = f
    · simp [here, View.advance, same]
    · simp [here, View.advance, agrees.off g symbolic]
  disk := agrees.disk

theorem overwrite (offset count : Nat) (env : p'.env = p.env)
    (maxFailures : p'.fs.maxFailures = p.fs.maxFailures) (disk : p'.fs.disk =
      Function.update p.fs.disk file ((p.fs.disk file).overwrite offset buf count)) :
    Agrees p₀ p' { view with writes := ⟨file, offset, count, buf⟩ :: view.writes } where
  saveAllWrites := env ▸ agrees.saveAllWrites
  maxFailures := maxFailures.trans agrees.maxFailures
  flags := env ▸ agrees.flags
  dfile := env ▸ agrees.dfile
  off := env ▸ agrees.off
  disk other := by
    rw [disk]
    by_cases here : other = file
    · subst here
      rw [Function.update_self, agrees.disk]
      simp only [ExeDiskFile.overwrite, byteAt, true_and]
    · rw [Function.update_of_ne here, agrees.disk]
      simp only [byteAt, Ne.symm here, false_and, if_false]

theorem getFile : p.env.getFile fd = p₀.env.getFile fd := by
  simp only [ExeSymEnv.getFile, agrees.flags]

end

end Agrees

theorem Agrees.located (agrees : Agrees p₀ p view) (opened : p₀.Opened fd f file) :
    Located p f file (view.offset f) (p₀.fs.disk file).size.toNat := by
  have dfile := (agrees.dfile f).trans opened.2
  have off := agrees.off f (by simp [dfile])
  rw [toInt_eq_toNat_cond] at off
  refine ⟨dfile, ?_, ?_, ?_⟩
  · split at off <;> omega
  · split at off <;> omega
  · rw [agrees.disk]

section Read

section

variable (agrees : Agrees p₀ p view) (opened : p₀.Opened fd f file)
include agrees opened

theorem read_run (nonzero : count ≠ 0) : p.read fd (some buf) count =
      if (p₀.fs.disk file).size.toNat < view.offset f then .ok ⟨0, some buf, { p with readCalls := p.readCalls + 1 }⟩
      else (p.fs.disk file).copyOut (p.env.fds f).off buf (p.clipped f file count) >>= fun bytes =>
        .ok ⟨p.clipped f file count, some bytes, setOff { p with readCalls := p.readCalls + 1 } f
            ((p.env.fds f).off + p.clipped f file count)⟩ := by
  have located := agrees.located opened
  have found : p.env.getFile fd = some f := agrees.getFile.trans opened.1
  have injects : injectsFailure { p with readCalls := p.readCalls + 1 } p.fs.readFail
      (p.readCalls + 1) = .ok false := by
    unfold injectsFailure
    rw [if_pos agrees.maxFailures]
    rfl
  unfold read
  rw [if_neg nonzero]
  simp only [found, injects, located.dfile, located.not_negative, located.slt_off_iff]
  rfl

theorem read_meets (fits : view.Fits p₀.fs.disk f file (.read fd buf count)) :
    ∃ result, p.read fd (some buf) count = .ok result ∧ Meets p₀ result (view.expect p₀.fs.disk f file (.read fd buf count)) := by
  have located := agrees.located opened
  by_cases nonzero : count ≠ 0
  · rw [read_run agrees opened nonzero]
    by_cases past : (p₀.fs.disk file).size.toNat < view.offset f
    · rw [if_pos past, View.expect_read_nothing _ _ (.inr past)]
      exact ⟨_, rfl, rfl, rfl, agrees.congr rfl rfl rfl⟩
    · rw [if_neg past]
      rw [Nat.not_lt] at past
      have copied := located.clipped_toNat past (by
        rcases fits with zero | beyond | fits
        · exact absurd zero nonzero
        · omega
        · exact fits)
      have inside : (p.fs.disk file).Within (p.env.fds f).off (p.clipped f file count) := by
        right
        rw [located.off_toInt, copied, located.size]
        omega
      rw [ExeDiskFile.copyOut, if_pos inside]
      refine ⟨_, rfl, ?_, ?_, ?_⟩
      · simp only [View.expect]
        rw [toInt_eq_toNat_of_lt (by omega), copied]
      · have same := agrees.disk file
        simp only [View.expect, copied, located.off]
        generalize p.fs.disk file = current at same
        subst same
        rfl
      · have steady : Agrees p₀ { p with readCalls := p.readCalls + 1 } view :=
          agrees.congr rfl rfl rfl
        apply steady.setOff
        rw [toInt_eq_toNat_of_lt (by rw [located.add_toNat]; omega), located.add_toNat, copied]
        omega
  · rw [not_not] at nonzero
    subst nonzero
    rw [View.expect_read_nothing _ _ (.inl rfl)]
    exact ⟨_, rfl, rfl, rfl, agrees.congr rfl rfl rfl⟩

theorem read_outOfBounds (overflows : ¬ view.Fits p₀.fs.disk f file (.read fd buf count)) :
    p.read fd (some buf) count = .error .outOfBounds := by
  have located := agrees.located opened
  rw [View.Fits, not_or, not_or, Nat.not_lt, Nat.not_lt] at overflows
  obtain ⟨nonzero, within, overflows⟩ := overflows
  have wraps : p.clipped f file count = count := by
    apply if_neg
    rw [lt_def, located.size_toNat, located.add_toNat]
    omega
  have outside : ¬ (p.fs.disk file).Within (p.env.fds f).off count := by
    rintro (zero | ⟨-, inside⟩)
    · exact nonzero zero
    · rw [located.off_toInt, located.size] at inside
      omega
  rw [read_run agrees opened nonzero, if_neg (Nat.not_lt.mpr within), wraps, ExeDiskFile.copyOut, if_neg outside]
  rfl

end

end Read

section Write

theorem store_env (dfile : File) (disk : ExeDiskFile Byte) (count actualCount : BitVec 64) :
    (((p.setFile dfile disk).warnIgnored count actualCount).countStdout dfile actualCount).env =
      p.env := by
  unfold countStdout warnIgnored
  split <;> split <;> rfl

theorem store_maxFailures (dfile : File) (disk : ExeDiskFile Byte) (count actualCount : BitVec 64) :
    (((p.setFile dfile disk).warnIgnored count actualCount).countStdout dfile actualCount).fs.maxFailures = p.fs.maxFailures := by
  unfold countStdout warnIgnored
  split <;> split <;> rfl

theorem store_disk (dfile : File) (disk : ExeDiskFile Byte) (count actualCount : BitVec 64) :
    (((p.setFile dfile disk).warnIgnored count actualCount).countStdout dfile
      actualCount).fs.disk = Function.update p.fs.disk dfile disk := by
  unfold countStdout warnIgnored
  split <;> split <;> rfl

theorem write_run (agrees : Agrees p₀ p view) (opened : p₀.Opened fd f file) :
    p.write fd buf count = (do
      let actualCount ← p.actualCount (p.env.fds f) ((p.fs.disk file).size.setWidth 64) count
      let disk ← (p.fs.disk file).store (p.env.fds f).off buf actualCount
      let called := { p with writeCalls := p.writeCalls + 1 }
      return ⟨count, some buf, (((called.setFile file disk).warnIgnored count
        actualCount).countStdout file actualCount).setOff f ((p.env.fds f).off + count)⟩) := by
  have located := agrees.located opened
  have found : p.env.getFile fd = some f := agrees.getFile.trans opened.1
  have injects : injectsFailure { p with writeCalls := p.writeCalls + 1 } p.fs.writeFail
      (p.writeCalls + 1) = .ok false := by
    unfold injectsFailure
    rw [if_pos agrees.maxFailures]
    rfl
  unfold write
  simp only [found, injects, located.dfile]
  rfl

theorem write_meets (agrees : Agrees p₀ p view) (opened : p₀.Opened fd f file)
    (fits : view.Fits p₀.fs.disk f file (.write fd buf count)) :
    ∃ result, p.write fd buf count = .ok result ∧ Meets p₀ result (view.expect p₀.fs.disk f file (.write fd buf count)) := by
  have located := agrees.located opened
  rw [View.Fits] at fits
  obtain ⟨n, isCount, counted⟩ := located.actualCount_run count agrees.saveAllWrites (by omega)
  rw [write_run agrees opened, counted, ok_bind, located.stored count.toNat buf isCount, ok_bind]
  refine ⟨_, rfl, ?_, rfl, ?_⟩
  · have small : 2 * count.toNat < 2 ^ 64 := by omega
    exact toInt_eq_toNat_of_lt small
  · have called : Agrees p₀ { p with writeCalls := p.writeCalls + 1 } view :=
      agrees.congr rfl rfl rfl
    apply Agrees.setOff (called.overwrite (view.offset f) count.toNat (store_env file _ count n)
      (store_maxFailures file _ count n) (store_disk file _ count n))
    rw [toInt_eq_toNat_of_lt (by rw [located.add_toNat]; omega), located.add_toNat]
    omega

theorem write_not_meets (opened : p₀.Opened fd f file)
    (overflows : ¬ view.Fits p₀.fs.disk f file (.write fd buf count)) (result : Result File Byte) :
    ¬ Meets p₀ result (view.expect p₀.fs.disk f file (.write fd buf count)) := by
  intro meets
  have dfile := (meets.agrees.dfile f).trans opened.2
  have off := meets.agrees.off f (by simp [dfile])
  have bounded := toInt_lt (x := (result.process.env.fds f).off)
  rw [View.Fits] at overflows
  simp only [View.expect, View.advance, Function.update_self] at off
  omega

end Write

section Seek

variable {offset : BitVec 64} {whence : Int}

theorem add_position (base off : BitVec 64) {position : Int} (isBase : base.toInt = position) (notNegative : 0 ≤ position) :
    if 0 ≤ position + off.toInt ∧ position + off.toInt < 2 ^ 63 then
      (base + off).slt 0 = false ∧ (base + off).toInt = position + off.toInt else (base + off).slt 0 = true := by
  have lower := le_toInt (x := off)
  have upper := toInt_lt (x := off)
  have baseUpper := toInt_lt (x := base)
  rw [slt_eq_decide, ofNat_eq_ofNat, toInt_zero, toInt_add, isBase, Int.bmod_def]
  split
  · simp only [decide_eq_false_iff_not]
    omega
  · simp only [decide_eq_true_eq]
    omega

theorem setOff_meets (agrees : Agrees p₀ p view) (base off : BitVec 64) {position : Int}
    (isBase : base.toInt = position) (notNegative : 0 ≤ position) :
    ∃ result, (if (base + off).slt 0 then .ok (p.fail .einval none)
        else .ok ⟨base + off, none, p.setOff f (base + off)⟩ : Except Fault _) = .ok result ∧
      Meets p₀ result (if 0 ≤ position + off.toInt ∧ position + off.toInt < 2 ^ 63 then
          (position + off.toInt, none, view.advance f (position + off.toInt).toNat) else (-1, none, view)) := by
  have added := add_position base off isBase notNegative
  split at added
  · rename_i within
    obtain ⟨positive, same⟩ := added
    refine ⟨_, if_neg (by rw [positive]; exact Bool.false_ne_true), ?_⟩
    rw [if_pos within]
    exact ⟨same, rfl, agrees.setOff (by omega)⟩
  · rename_i outside
    refine ⟨_, if_pos added, ?_⟩
    rw [if_neg outside]
    exact ⟨rfl, rfl, agrees.congr rfl rfl rfl⟩

theorem lseek_meets (agrees : Agrees p₀ p view) (opened : p₀.Opened fd f file) :
    ∃ result, p.fdLseek fd offset whence = .ok result ∧ Meets p₀ result (view.expect p₀.fs.disk f file (.lseek fd offset whence)) := by
  have located := agrees.located opened
  have found : p.env.getFile fd = some f := agrees.getFile.trans opened.1
  unfold fdLseek
  simp only [found, located.dfile]
  simp only [View.expect]
  unfold View.base
  split
  · have start : (0#64).toInt = 0 := rfl
    have sought := setOff_meets agrees (f := f) 0#64 offset start (Int.le_refl 0)
    rw [BitVec.zero_add] at sought
    exact sought
  · exact setOff_meets agrees (p.env.fds f).off offset located.off_toInt (Int.natCast_nonneg _)
  · exact setOff_meets agrees _ offset located.size_toInt (Int.natCast_nonneg _)
  · rename_i notSet notCurrent notEnd
    simp only
    exact ⟨_, rfl, rfl, rfl, agrees.congr rfl rfl rfl⟩

end Seek

theorem perform_meets (agrees : Agrees p₀ p view) {call : Call Byte}
    (opened : p₀.Opened call.fd f file) (fits : view.Fits p₀.fs.disk f file call) :
    ∃ result, p.perform call = .ok result ∧ Meets p₀ result (view.expect p₀.fs.disk f file call) := by
  cases call with
  | read fd buf count => exact read_meets agrees opened fits
  | write fd buf count => exact write_meets agrees opened fits
  | lseek fd offset whence => exact lseek_meets agrees opened

theorem perform_fits (agrees : Agrees p₀ p view) {call : Call Byte}
    (opened : p₀.Opened call.fd f file) {result : Result File Byte} (performed : p.perform call = .ok result)
    (meets : Meets p₀ result (view.expect p₀.fs.disk f file call)) : view.Fits p₀.fs.disk f file call := by
  cases call with
  | read fd buf count =>
    by_contra overflows
    have failed : p.perform (.read fd buf count) = .error .outOfBounds := read_outOfBounds agrees opened overflows
    rw [performed] at failed
    cases failed
  | write fd buf count =>
    by_contra overflows
    exact write_not_meets opened overflows result meets
  | lseek fd offset whence => trivial

theorem calls_obey_iff : ∀ (calls : List (Call Byte)) {p : Process File Byte}
    {view : View File Byte}, Agrees p₀ p view → (Obeys p₀ p view calls ↔ Fit p₀ view calls)
  | [], _, _, _ => Iff.rfl
  | call :: calls, p, view, agrees => by
    apply forall_congr'
    intro f
    apply forall_congr'
    intro file
    apply imp_congr_right
    intro opened
    constructor
    · intro obeys
      obtain ⟨result, performed, meets, rest⟩ := obeys
      exact ⟨perform_fits agrees opened performed meets, (calls_obey_iff calls meets.agrees).mp rest⟩
    · intro fit
      obtain ⟨result, performed, meets⟩ := perform_meets agrees opened fit.1
      exact ⟨result, performed, meets, (calls_obey_iff calls meets.agrees).mpr fit.2⟩

section Example

def sampleProcess : Process Unit Nat where
  fs := ⟨fun _ => ⟨4, fun _ => 0⟩, none, 0, 0, none, none⟩
  env := ⟨fun f => if f = 3 then ⟨0, eOpen, 0, some ()⟩ else ⟨0, 0, 0, none⟩, false⟩
  readCalls := 0
  writeCalls := 0
  errno := none
  warnings := []

theorem sampleProcess_valid : sampleProcess.Valid where
  saveAllWrites := rfl
  maxFailures := rfl
  off f _ := by
    by_cases opened : f = 3
    · simp [sampleProcess, opened]
    · simp [sampleProcess, opened]

theorem sampleProcess_opened {f : Fin maxFds} (opened : sampleProcess.Opened 3 f ()) : f = 3 := by
  have found : sampleProcess.env.getFile 3 = some 3 := rfl
  exact Option.some.inj (opened.1.symm.trans found)

end Example

/-- Sequences of calls on symbolic files obey the file law exactly if the positions of all
calls can be held. -/
theorem symbolicFiles_obey_iff (p : Process File Byte) (valid : p.Valid)
    (calls : List (Call Byte)) : Obeys p p p.view calls ↔ Fit p p.view calls :=
  calls_obey_iff calls (Agrees.refl valid)

theorem symbolicFiles_obey_iff_sample : Obeys sampleProcess sampleProcess sampleProcess.view
    [.write 3 (fun i => i) 6, .lseek 3 (-5) 1, .read 3 (fun _ => 9) 100] := by
  rw [symbolicFiles_obey_iff sampleProcess sampleProcess_valid]
  rintro f ⟨⟩ opened
  cases sampleProcess_opened opened
  refine ⟨(by decide : 0 + 6 < 2 ^ 63), ?_⟩
  rintro f ⟨⟩ opened
  cases sampleProcess_opened opened
  refine ⟨trivial, ?_⟩
  rintro f ⟨⟩ opened
  cases sampleProcess_opened opened
  exact ⟨.inr (.inr (by decide : 1 + 100 < 2 ^ 64)), trivial⟩

/-- The bound test of `read` overflows, and so does the offset of `write`: the write after
it is out of bounds. -/
theorem calls_outOfBounds : ¬ Obeys sampleProcess sampleProcess sampleProcess.view
      [.lseek 3 1 0, .read 3 (fun _ => 9) (-1)] ∧
    ¬ Obeys sampleProcess sampleProcess sampleProcess.view
      [.lseek 3 0x7fffffffffffffff 0, .write 3 (fun _ => 9) 1, .write 3 (fun _ => 9) 1] := by
  constructor
  · intro obeys
    obtain ⟨sought, performed, -, obeys⟩ := obeys 3 () ⟨rfl, rfl⟩
    obtain ⟨result, failed, -⟩ := obeys 3 () ⟨rfl, rfl⟩
    cases performed
    cases failed
  · intro obeys
    obtain ⟨sought, performed, -, obeys⟩ := obeys 3 () ⟨rfl, rfl⟩
    obtain ⟨written, performedWrite, -, obeys⟩ := obeys 3 () ⟨rfl, rfl⟩
    obtain ⟨result, failed, -⟩ := obeys 3 () ⟨rfl, rfl⟩
    cases performed
    cases performedWrite
    cases failed

end Process

end NeuroMerge.Posix
