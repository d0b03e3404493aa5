import Mathlib.Data.List.Basic

/-!
# Byte streams

`fwrite` and `fread` on a file that can be written and read, and what a reader
gets back of what a writer has put there. Both count whole elements, so that of
elements without bytes they count none.
-/

namespace NeuroMerge

open List

abbrev Byte := BitVec 8

abbrev Bytes := List Byte

/-- A writer appends to the file, or fails. -/
abbrev Writer := StateT Bytes Option

/-- A reader takes bytes from the file, or raises a fault. -/
abbrev Reader (ε : Type) := StateT Bytes (Except ε)

namespace ByteStream

def fwrite (data : Bytes) (size count : Nat) : Writer Nat := fun file =>
  if size = 0 ∨ count = 0 then some (0, file)
  else some (count, file ++ data.take (size * count))

/-- `fread` into a buffer: the bytes that were read, and the number of whole elements. -/
def fread {ε : Type} (overflow : ε) (capacity size count : Nat) : Reader ε (Bytes × Nat) :=
  fun file =>
    if size = 0 ∨ count = 0 then .ok (([], 0), file)
    else
      let data := file.take (size * count)
      if capacity < data.length then .error overflow
      else .ok ((data, data.length / size), file.drop (size * count))

def times {ε α : Type} (read : Reader ε α) : Nat → Reader ε (List α)
  | 0 => pure []
  | n + 1 => do
    let value ← read
    let rest ← times read n
    pure (value :: rest)

variable {ε α β : Type} {overflow : ε}

def Writes (write : Writer α) (bytes : Bytes) (value : α) : Prop :=
  ∀ file, write file = some (value, file ++ bytes)

def Refuses (write : Writer α) : Prop := ∀ file, write file = none

def Reads (read : Reader ε α) (bytes : Bytes) (value : α) : Prop :=
  ∀ rest, read (bytes ++ rest) = .ok (value, rest)

def Raises (read : Reader ε α) (bytes : Bytes) (fault : ε) : Prop :=
  ∀ rest, read (bytes ++ rest) = .error fault

namespace Writes

variable {write : Writer α} {next : α → Writer β} {bytes more : Bytes} {value : α} {result : β}

theorem bind (writes : Writes write bytes value) (writesNext : Writes (next value) more result) :
    Writes (write >>= next) (bytes ++ more) result := by
  intro file
  change (write file).bind (fun result => next result.1 result.2) = _
  rw [writes file, ← append_assoc]
  exact writesNext (file ++ bytes)

theorem last (writes : Writes write bytes value) (done : ∀ file, next value file = some (result, file)) :
    Writes (write >>= next) bytes result := by
  intro file
  change (write file).bind (fun result => next result.1 result.2) = _
  rw [writes file]
  exact done (file ++ bytes)

theorem forM {write : α → Writer Unit} {encode : α → Bytes} (values : List α)
    (writes : ∀ value ∈ values, Writes (write value) (encode value) ()) : Writes (values.forM write) (values.flatMap encode) () := by
  induction values with
  | nil =>
    intro file
    rw [flatMap_nil, append_nil]
    rfl
  | cons value rest ih =>
    have writesRest := ih fun other member => writes other (mem_cons_of_mem value member)
    exact (writes value mem_cons_self).bind writesRest

end Writes

namespace Refuses

variable {write : Writer α} {next : α → Writer β} {bytes : Bytes} {value : α}

theorem bind_left (refuses : Refuses write) : Refuses (write >>= next) := by
  intro file
  change (write file).bind (fun result => next result.1 result.2) = none
  rw [refuses file, Option.bind_none]

theorem bind_right (refuses : ∀ value, Refuses (next value)) : Refuses (write >>= next) := by
  intro file
  change (write file).bind (fun result => next result.1 result.2) = none
  cases write file with
  | none => rfl
  | some result => exact refuses result.1 result.2

theorem after (writes : Writes write bytes value) (refuses : Refuses (next value)) : Refuses (write >>= next) := by
  intro file
  change (write file).bind (fun result => next result.1 result.2) = none
  rw [writes file]
  exact refuses (file ++ bytes)

theorem forM {write : α → Writer Unit} {values : List α} {value : α} (member : value ∈ values)
    (refuses : Refuses (write value)) : Refuses (values.forM write) := by
  induction values with
  | nil => cases member
  | cons head rest ih =>
    obtain rfl | later := mem_cons.mp member
    · exact refuses.bind_left
    · exact bind_right fun _ => ih later

end Refuses

namespace Reads

variable {read : Reader ε α} {bytes more : Bytes} {value : α}

theorem pure (value : α) : Reads (pure value : Reader ε α) [] value := fun _ => rfl

theorem bind_apply {next : α → Reader ε β} (reads : Reads read bytes value) (rest : Bytes) :
    (read >>= next) (bytes ++ rest) = next value rest := by
  change (read (bytes ++ rest)).bind (fun result => next result.1 result.2) = _
  rw [reads rest]
  rfl

theorem bind {next : α → Reader ε β} {result : β} (reads : Reads read bytes value)
    (readsNext : Reads (next value) more result) : Reads (read >>= next) (bytes ++ more) result := by
  intro rest
  rw [append_assoc, reads.bind_apply]
  exact readsNext rest

theorem yield (make : α → β) (reads : Reads read bytes value) :
    Reads (do return make (← read)) bytes (make value) := by
  intro rest
  rw [reads.bind_apply]
  rfl

theorem times {encode : α → Bytes} (values : List α) (reads : ∀ value ∈ values, Reads read (encode value) value) :
    Reads (times read values.length) (values.flatMap encode) values := by
  induction values with
  | nil => exact Reads.pure []
  | cons value rest ih =>
    have readsRest := ih fun other member => reads other (mem_cons_of_mem value member)
    exact (reads value mem_cons_self).bind (readsRest.yield (value :: ·))

end Reads

namespace Raises

variable {read : Reader ε α} {bytes more : Bytes} {fault : ε} {value : α}

theorem bind_left {next : α → Reader ε β} (raises : Raises read bytes fault) : Raises (read >>= next) bytes fault := by
  intro rest
  change (read (bytes ++ rest)).bind (fun result => next result.1 result.2) = _
  rw [raises rest]
  rfl

theorem append (raises : Raises read bytes fault) (more : Bytes) : Raises read (bytes ++ more) fault := by
  intro rest
  rw [append_assoc]
  exact raises (more ++ rest)

theorem bind_right {next : α → Reader ε β} (reads : Reads read bytes value)
    (raises : Raises (next value) more fault) : Raises (read >>= next) (bytes ++ more) fault := by
  intro rest
  rw [append_assoc, reads.bind_apply]
  exact raises rest

theorem times {encode : α → Bytes} (values : List α)
    (all : ∀ value ∈ values, Reads read (encode value) value ∨ Raises read (encode value) fault)
    (one : ∃ value ∈ values, Raises read (encode value) fault) : Raises (times read values.length) (values.flatMap encode) fault := by
  induction values with
  | nil =>
    obtain ⟨value, member, -⟩ := one
    cases member
  | cons head rest ih =>
    obtain reads | raises := all head mem_cons_self
    · obtain ⟨value, member, raises⟩ := one
      obtain rfl | later := mem_cons.mp member
      · exact raises.bind_left.append _
      · have raisesRest := ih (fun other member => all other (mem_cons_of_mem head member)) ⟨value, later, raises⟩
        exact bind_right reads raisesRest.bind_left
    · exact raises.bind_left.append _

end Raises

theorem fwrite_whole (bytes : Bytes) (some : bytes ≠ []) : Writes (fwrite bytes bytes.length 1) bytes 1 := by
  intro file
  have positive : bytes.length ≠ 0 := by rwa [Ne, length_eq_zero_iff]
  rw [fwrite, if_neg (by simp [positive]), Nat.mul_one, take_length]

theorem fread_whole {capacity : Nat} (bytes : Bytes) (some : bytes ≠ []) (fits : bytes.length ≤ capacity) :
    Reads (fread overflow capacity bytes.length 1) bytes (bytes, 1) := by
  intro rest
  have positive : bytes.length ≠ 0 := by rwa [Ne, length_eq_zero_iff]
  rw [fread, if_neg (by simp [positive]), Nat.mul_one]
  rw [take_left, drop_left, if_neg (by omega), Nat.div_self (by omega)]

end ByteStream

end NeuroMerge
