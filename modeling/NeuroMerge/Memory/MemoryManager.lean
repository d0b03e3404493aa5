import Mathlib.Tactic.IntervalCases
import NeuroMerge.Memory.ObjectState

/-!
# The memory manager

Where new objects are placed: in memory that the host allocates, or one after the other in
a space that has been reserved for them.
-/

namespace NeuroMerge.Memory

open ObjectState (isPowerOfTwo)

/-- The allocation functions of the host, whose results depend on which objects have their
memory from it. They return an address, or null. -/
structure Host where
  malloc : List MemoryObject → Nat → Nat
  posixMemalign : List MemoryObject → Nat → Nat → Nat

structure MemoryOptions where
  nullOnZeroMalloc : Bool
  deterministicAllocation : Bool
  redzoneSize : Nat

/-- `counter` is the number of the next object, and `objects` are those that exist. -/
structure MemoryManager where
  deterministicSpace : Nat
  spaceSize : Nat
  nextFreeSlot : Nat
  objects : List MemoryObject
  counter : Nat

def alignTo (value align : Nat) : Nat := (value + align - 1) % 2 ^ 64 / align * align

namespace MemoryManager

variable (host : Host) (options : MemoryOptions) (manager : MemoryManager)

def create (newSpace spaceSize : Nat) : MemoryManager := ⟨newSpace, spaceSize, newSpace, [], 0⟩

def spaceEnd : Nat := manager.deterministicSpace + manager.spaceSize

/-- The next free place in the space. Addresses wrap while they are aligned; the sum with
the size is one of pointers, which do not. -/
def deterministicAddress (size alignment : Nat) : Nat × MemoryManager :=
  let address := alignTo ((manager.nextFreeSlot + alignment - 1) % 2 ^ 64) alignment
  let allocSize := max size 1
  if address + allocSize < manager.spaceEnd then
    (address, { manager with nextFreeSlot := address + allocSize + options.redzoneSize })
  else (0, manager)

def newAddress (size alignment : Nat) : Nat × MemoryManager :=
  if options.deterministicAllocation then manager.deterministicAddress options size alignment
  else if alignment ≤ 8 then (host.malloc manager.objects size, manager)
  else (host.posixMemalign manager.objects alignment size, manager)

/-- The size of an object is stored in 32 bits. -/
def allocate (size alignment : Nat) : Option MemoryObject × MemoryManager :=
  if options.nullOnZeroMalloc = true ∧ size = 0 then (none, manager)
  else if isPowerOfTwo alignment = false then (none, manager)
  else
    let (address, manager) := manager.newAddress host options size alignment
    if address = 0 then (none, manager)
    else
      let mo : MemoryObject := ⟨manager.counter, address, size % 2 ^ 32, false⟩
      (some mo, { manager with objects := mo :: manager.objects, counter := manager.counter + 1 })

end MemoryManager

/-!
## New objects are apart from all others
-/

def Clear (objects : List MemoryObject) (address size : Nat) : Prop :=
  ∀ mo ∈ objects, address + max 1 size ≤ mo.address ∨ mo.address + max 1 mo.size ≤ address

/-- What the host says of its functions: a block is aligned as it has to be, and apart from
the memory in use. -/
structure Host.Lawful (host : Host) : Prop where
  malloc_aligned : ∀ objects size, 8 ∣ host.malloc objects size
  malloc_clear : ∀ objects size, host.malloc objects size ≠ 0 →
    Clear objects (host.malloc objects size) size
  posixMemalign_aligned : ∀ objects alignment size, isPowerOfTwo alignment = true →
    8 < alignment → alignment ∣ host.posixMemalign objects alignment size
  posixMemalign_clear : ∀ objects alignment size, host.posixMemalign objects alignment size ≠ 0 →
    Clear objects (host.posixMemalign objects alignment size) size

/-- The free part of the space is free. -/
structure MemoryManager.Reserved (options : MemoryOptions) (manager : MemoryManager) : Prop where
  addressable : manager.spaceEnd + options.redzoneSize ≤ 2 ^ 62
  slot : manager.nextFreeSlot ≤ manager.spaceEnd + options.redzoneSize
  free : ∀ mo ∈ manager.objects,
    mo.address + max 1 mo.size ≤ manager.nextFreeSlot ∨ manager.spaceEnd ≤ mo.address

def MemoryManager.Ready (options : MemoryOptions) (manager : MemoryManager) : Prop :=
  options.deterministicAllocation = true → manager.Reserved options

variable {host : Host} {options : MemoryOptions} {manager manager' : MemoryManager}
  {objects : List MemoryObject} {mo : MemoryObject} {address size alignment : Nat}

theorem dvd_eight_of_isPowerOfTwo (power : isPowerOfTwo alignment = true) (small : alignment ≤ 8) : alignment ∣ 8 := by
  revert power
  interval_cases alignment <;> decide

theorem le_of_isPowerOfTwo {k : Nat} (power : isPowerOfTwo alignment = true) (narrow : alignment < 2 ^ (k + 1)) : alignment ≤ 2 ^ k := by
  by_contra above
  have noBits : alignment &&& (alignment - 1) = 0 := (of_decide_eq_true power).2
  have topBit {n : Nat} (above : 2 ^ k ≤ n) (narrow : n < 2 ^ (k + 1)) : n.testBit k = true := by
    have high : n / 2 ^ k = 1 := Nat.div_eq_of_lt_le (by omega) (by rw [Nat.pow_succ] at narrow; omega)
    rw [Nat.testBit_eq_decide_div_mod_eq, high]
    rfl
  have both : (alignment &&& (alignment - 1)).testBit k = true := by
    rw [Nat.testBit_and, topBit (by omega) narrow, topBit (by omega) (by omega), Bool.true_and]
  rw [noBits, Nat.zero_testBit] at both
  exact Bool.false_ne_true both

theorem dvd_alignTo (value align : Nat) : align ∣ alignTo value align := Nat.dvd_mul_left _ _

theorem alignTo_bounds (value : Nat) (positive : 0 < alignment) (exact : value + alignment - 1 < 2 ^ 64) :
    value ≤ alignTo value alignment ∧ alignTo value alignment < value + alignment := by
  have rest := Nat.mod_lt (value + alignment - 1) positive
  have split := Nat.div_add_mod' (value + alignment - 1) alignment
  rw [alignTo, Nat.mod_eq_of_lt exact]
  omega

theorem le_alignTo {value : Nat} (positive : 0 < alignment) (fits : value < 2 ^ 64)
    (notNull : alignTo value alignment ≠ 0) (small : alignment ≤ 2 ^ 63) : value ≤ alignTo value alignment := by
  by_cases exact : value + alignment - 1 < 2 ^ 64
  · exact (alignTo_bounds value positive exact).1
  · -- what is left after wrapping is less than the alignment
    exfalso
    apply notNull
    have wrapped : (value + alignment - 1) % 2 ^ 64 < alignment := by omega
    rw [alignTo, Nat.div_eq_of_lt wrapped, Nat.zero_mul]

theorem Clear.mono {smaller : Nat} (clear : Clear objects address size) (le : smaller ≤ size) : Clear objects address smaller := by
  intro mo member
  have apart := clear mo member
  omega

namespace MemoryManager

structure Finds (objects : List MemoryObject) (size alignment address : Nat) : Prop where
  aligned : alignment ∣ address
  clear : address ≠ 0 → Clear objects address size

theorem deterministicAddress_finds (reserved : manager.Reserved options) (positive : 0 < alignment) (small : alignment ≤ 2 ^ 63) :
    Finds manager.objects size alignment (manager.deterministicAddress options size alignment).1 := by
  have slot := reserved.slot
  have addressable := reserved.addressable
  rw [deterministicAddress]
  split
  · rename_i fits
    refine ⟨dvd_alignTo _ _, fun notNull mo member => ?_⟩
    have noWrap : manager.nextFreeSlot + alignment - 1 < 2 ^ 64 := by omega
    rw [Nat.mod_eq_of_lt noWrap] at fits notNull ⊢
    have above := le_alignTo positive noWrap notNull small
    have apart := reserved.free mo member
    omega
  · exact ⟨Nat.dvd_zero _, fun notNull => absurd rfl notNull⟩

theorem newAddress_finds (lawful : host.Lawful) (ready : manager.Ready options)
    (power : isPowerOfTwo alignment = true) (narrow : alignment < 2 ^ 64) :
    Finds manager.objects size alignment (manager.newAddress host options size alignment).1 := by
  have positive : 0 < alignment := Nat.pos_of_ne_zero (of_decide_eq_true power).1
  rw [newAddress]
  split
  · rename_i deterministic
    exact deterministicAddress_finds (ready deterministic) positive (le_of_isPowerOfTwo power narrow)
  · split
    · rename_i small
      exact ⟨Nat.dvd_trans (dvd_eight_of_isPowerOfTwo power small) (lawful.malloc_aligned _ _), lawful.malloc_clear _ _⟩
    · rename_i large
      exact ⟨lawful.posixMemalign_aligned _ _ _ power (Nat.lt_of_not_le large), lawful.posixMemalign_clear _ _ _⟩

theorem newAddress_objects : (manager.newAddress host options size alignment).2.objects = manager.objects := by
  rw [newAddress, deterministicAddress]
  repeat' split
  all_goals rfl

structure Allocated (objects : List MemoryObject) (size alignment : Nat) (mo : MemoryObject) :
    Prop where
  size : mo.size = size % 2 ^ 32
  notNull : mo.address ≠ 0
  aligned : alignment ∣ mo.address
  clear : Clear objects mo.address mo.size

theorem allocate_some (lawful : host.Lawful) (ready : manager.Ready options) (narrow : alignment < 2 ^ 64)
    (allocated : manager.allocate host options size alignment = (some mo, manager')) :
    Allocated manager.objects size alignment mo ∧ manager'.objects = mo :: manager.objects := by
  rw [allocate] at allocated
  split at allocated
  · cases allocated
  split at allocated
  · cases allocated
  rename_i power
  rw [Bool.not_eq_false] at power
  dsimp only at allocated
  split at allocated
  · cases allocated
  rename_i notNull
  cases allocated
  have finds : Finds manager.objects size alignment (manager.newAddress host options size alignment).1 :=
    newAddress_finds lawful ready power narrow
  refine ⟨⟨rfl, notNull, finds.aligned, (finds.clear notNull).mono (Nat.mod_le _ _)⟩, ?_⟩
  exact congrArg _ newAddress_objects

theorem allocate_none (refused : manager.allocate host options size alignment = (none, manager')) :
    manager'.objects = manager.objects := by
  rw [allocate] at refused
  split at refused
  · cases refused
    rfl
  split at refused
  · cases refused
    rfl
  dsimp only at refused
  split at refused
  · cases refused
    exact newAddress_objects
  · cases refused

theorem Reserved.deterministicAddress (reserved : manager.Reserved options) (positive : 0 < alignment) (small : alignment ≤ 2 ^ 62) :
    (manager.deterministicAddress options size alignment).2.Reserved options ∧
      ((manager.deterministicAddress options size alignment).1 ≠ 0 →
        (manager.deterministicAddress options size alignment).1 + max 1 size ≤
          (manager.deterministicAddress options size alignment).2.nextFreeSlot) := by
  have slot := reserved.slot
  have addressable := reserved.addressable
  have noWrap : manager.nextFreeSlot + alignment - 1 < 2 ^ 64 := by omega
  have above : manager.nextFreeSlot + alignment - 1 ≤ alignTo (manager.nextFreeSlot + alignment - 1) alignment :=
    (alignTo_bounds _ positive (by omega)).1
  rw [MemoryManager.deterministicAddress, Nat.mod_eq_of_lt noWrap]
  split
  · rename_i fits
    dsimp only at fits ⊢
    refine ⟨⟨addressable, by dsimp only [spaceEnd] at fits ⊢; omega, fun mo member => ?_⟩, fun _ => by omega⟩
    have apart := reserved.free mo member
    dsimp only [spaceEnd] at apart ⊢
    omega
  · exact ⟨reserved, fun notNull => absurd rfl notNull⟩

theorem Ready.allocate (ready : manager.Ready options) (small : alignment ≤ 2 ^ 62) :
    (manager.allocate host options size alignment).2.Ready options := by
  rw [MemoryManager.allocate]
  split
  · exact ready
  split
  · exact ready
  rename_i power
  rw [Bool.not_eq_false] at power
  have positive : 0 < alignment := Nat.pos_of_ne_zero (of_decide_eq_true power).1
  intro deterministic
  obtain ⟨reserved, below⟩ : Reserved options _ ∧
      ((manager.deterministicAddress options size alignment).1 ≠ 0 → _) :=
    (ready deterministic).deterministicAddress positive small
  have address : manager.newAddress host options size alignment =
      manager.deterministicAddress options size alignment := by
    rw [newAddress, if_pos deterministic]
  rw [address]
  dsimp only
  split
  · exact reserved
  · rename_i notNull
    refine ⟨reserved.addressable, reserved.slot, ?_⟩
    intro mo member
    cases member with
    | head =>
      left
      dsimp only
      omega
    | tail _ old => exact reserved.free mo old

end MemoryManager

/-!
## The space over a sequence of requests
-/

structure Request where
  size : Nat
  alignment : Nat
  size_lt : size < 2 ^ 64
  alignment_lt : alignment < 2 ^ 64

structure Allocation where
  before : MemoryManager
  request : Request
  object : Option MemoryObject
  after : MemoryManager

namespace MemoryManager

variable (host : Host) (options : MemoryOptions) (manager : MemoryManager)

def call (request : Request) : Allocation :=
  let result := manager.allocate host options request.size request.alignment
  ⟨manager, request, result.1, result.2⟩

def calls (manager : MemoryManager) : List Request → List Allocation
  | [] => []
  | request :: later =>
    let a := manager.call host options request
    a :: calls a.after later

end MemoryManager

namespace Allocation

variable (options : MemoryOptions) (a b : Allocation)

def bytes : Nat := max a.request.size 1

def place : Nat :=
  alignTo ((a.before.nextFreeSlot + a.request.alignment - 1) % 2 ^ 64) a.request.alignment

/-- The request is turned down before the space is looked at. -/
def TurnedDown : Prop :=
  options.nullOnZeroMalloc = true ∧ a.request.size = 0 ∨ isPowerOfTwo a.request.alignment = false

/-- No sum on the way to the test leaves the address space, unless the test fails all the
same. -/
def InRange : Prop :=
  a.TurnedDown options ∨
    (a.request.alignment = 2 ^ 63 → a.before.spaceEnd ≤ a.request.size) ∧ a.place + a.bytes < 2 ^ 64

/-- What a call has to do: an object is aligned and in the free part of the space, and
without one nothing changes. What does not fit is refused, and nothing else but what leaves
less room than twice its alignment. -/
structure Correct : Prop where
  aligned : ∀ mo, a.object = some mo → a.request.alignment ∣ mo.address
  inside : ∀ mo, a.object = some mo → a.before.deterministicSpace ≤ mo.address ∧
    mo.address + a.bytes ≤ a.before.spaceEnd
  unfit : a.before.spaceEnd < a.before.nextFreeSlot + a.bytes → a.object = none
  unchanged : a.object = none → a.after = a.before
  refused : a.object = none → a.TurnedDown options ∨
    a.before.spaceEnd < a.before.nextFreeSlot + 2 * a.request.alignment + a.bytes

def Apart : Prop :=
  ∀ mo, a.object = some mo → ∀ mo', b.object = some mo' →
    mo.address + a.bytes + options.redzoneSize ≤ mo'.address

end Allocation

namespace MemoryManager

structure Open (options : MemoryOptions) (manager : MemoryManager) : Prop where
  mapped : 0 < manager.deterministicSpace
  addressable : manager.spaceEnd + options.redzoneSize ≤ 2 ^ 62
  lower : manager.deterministicSpace ≤ manager.nextFreeSlot
  upper : manager.nextFreeSlot ≤ manager.spaceEnd + options.redzoneSize

/-- The calls are as they should be, and the objects lie in what was free before. -/
structure Separate (options : MemoryOptions) (manager : MemoryManager)
    (made : List Allocation) : Prop where
  correct : ∀ a ∈ made, a.Correct options
  above : ∀ a ∈ made, ∀ mo, a.object = some mo → manager.nextFreeSlot ≤ mo.address
  apart : made.Pairwise (Allocation.Apart options)

/-- A call in range either changes nothing, or puts the object behind all others. -/
structure Advances (options : MemoryOptions) (a : Allocation) : Prop where
  correct : a.Correct options
  openAfter : a.after.Open options
  grows : a.before.nextFreeSlot ≤ a.after.nextFreeSlot
  placed : ∀ mo, a.object = some mo → a.before.nextFreeSlot ≤ mo.address ∧
    mo.address + a.bytes + options.redzoneSize ≤ a.after.nextFreeSlot

theorem Advances.of_refused {a : Allocation} (isOpen : a.before.Open options) (none : a.object = none) (same : a.after = a.before)
    (reason : a.TurnedDown options ∨
      a.before.spaceEnd < a.before.nextFreeSlot + 2 * a.request.alignment + a.bytes) : Advances options a where
  correct := {
    aligned := fun mo found => by simp [none] at found
    inside := fun mo found => by simp [none] at found
    unfit := fun _ => none
    unchanged := fun _ => same
    refused := fun _ => reason }
  openAfter := same ▸ isOpen
  grows := Nat.le_of_eq (congrArg nextFreeSlot same.symm)
  placed := fun mo found => by simp [none] at found

/-- Where the alignment is not the greatest one, the place tried is the next free slot or
one of the places behind it. -/
theorem Open.place {a : Allocation} (isOpen : a.before.Open options)
    (power : isPowerOfTwo a.request.alignment = true) (small : a.request.alignment ≠ 2 ^ 63) :
    a.before.nextFreeSlot ≤ a.place ∧ a.place < a.before.nextFreeSlot + 2 * a.request.alignment := by
  have positive : 0 < a.request.alignment := Nat.pos_of_ne_zero (of_decide_eq_true power).1
  have half : a.request.alignment ≤ 2 ^ 62 := by
    have le : a.request.alignment ≤ 2 ^ 63 := le_of_isPowerOfTwo power a.request.alignment_lt
    exact le_of_isPowerOfTwo power (by omega)
  have upper := isOpen.upper
  have addressable := isOpen.addressable
  have noWrap : a.before.nextFreeSlot + a.request.alignment - 1 < 2 ^ 64 := by omega
  have bounds := alignTo_bounds (a.before.nextFreeSlot + a.request.alignment - 1) positive (by omega)
  rw [Allocation.place, Nat.mod_eq_of_lt noWrap]
  omega

theorem call_place (host : Host) (manager : MemoryManager) (deterministic : options.deterministicAllocation = true) (request : Request)
    {a : Allocation} (made : manager.call host options request = a) :
    a.object = none ∧ a.after = manager ∧
        (a.TurnedDown options ∨ manager.spaceEnd ≤ a.place + a.bytes) ∨
      ¬ a.TurnedDown options ∧ a.place + a.bytes < manager.spaceEnd ∧
        a.after.spaceEnd = manager.spaceEnd ∧
        a.after.deterministicSpace = manager.deterministicSpace ∧
        a.after.nextFreeSlot = a.place + a.bytes + options.redzoneSize ∧
        (a.place ≠ 0 → ∃ mo, a.object = some mo ∧ mo.address = a.place) := by
  subst made
  unfold call allocate
  split
  · rename_i zero
    exact .inl ⟨rfl, rfl, .inl (.inl zero)⟩
  rename_i some
  split
  · rename_i odd
    exact .inl ⟨rfl, rfl, .inl (.inr odd)⟩
  rename_i power
  rw [newAddress, if_pos deterministic, deterministicAddress]
  dsimp only
  split
  · rename_i fits
    refine .inr ?_
    split
    · rename_i null
      exact ⟨fun down => down.elim some power, fits, rfl, rfl, rfl, fun found => absurd null found⟩
    · exact ⟨fun down => down.elim some power, fits, rfl, rfl, rfl, fun _ => ⟨_, rfl, rfl⟩⟩
  · rename_i full
    exact .inl ⟨rfl, rfl, .inr (Nat.le_of_not_lt full)⟩

theorem Open.call (isOpen : manager.Open options) (deterministic : options.deterministicAllocation = true) (request : Request)
    (inRange : (manager.call host options request).InRange options) : Advances options (manager.call host options request) := by
  have outcome := call_place host manager deterministic request rfl
  have aligned : (manager.call host options request).request.alignment ∣ (manager.call host options request).place := dvd_alignTo _ _
  have same : (manager.call host options request).before = manager := rfl
  generalize manager.call host options request = a at *
  subst same
  have mapped := isOpen.mapped
  have lower := isOpen.lower
  by_cases down : a.TurnedDown options
  · rcases outcome with ⟨none, unchanged, -⟩ | ⟨served, -⟩
    · exact .of_refused isOpen none unchanged (.inl down)
    · exact absurd down served
  have power : isPowerOfTwo a.request.alignment = true := by
    cases value : isPowerOfTwo a.request.alignment with
    | false => exact absurd (.inr value) down
    | true => rfl
  by_cases greatest : a.request.alignment = 2 ^ 63
  · -- the place may be null, but the size alone fills the space
    rcases inRange with down' | ⟨large, -⟩
    · exact absurd down' down
    have size : a.request.size ≤ a.bytes := Nat.le_max_left _ _
    rcases outcome with ⟨none, unchanged, -⟩ | ⟨-, fits, -⟩
    · exact .of_refused isOpen none unchanged (.inr (by omega))
    · omega
  obtain ⟨above, below⟩ := isOpen.place power greatest
  rcases outcome with ⟨none, unchanged, down' | full⟩ | ⟨-, fits, spaceEnd, space, slot, object⟩
  · exact absurd down' down
  · exact .of_refused isOpen none unchanged (.inr (by omega))
  obtain ⟨mo, object, address⟩ := object (by omega)
  have only (other : MemoryObject) (found : a.object = some other) : other.address = a.place := by
    rw [object] at found
    cases found
    exact address
  have some : a.object ≠ none := by simp [object]
  exact {
    correct := {
      aligned := fun other found => only other found ▸ aligned
      inside := fun other found => by
        rw [only other found]
        omega
      unfit := fun tight => by omega
      unchanged := fun none => absurd none some
      refused := fun none => absurd none some }
    openAfter := {
      mapped := space ▸ isOpen.mapped
      addressable := spaceEnd ▸ isOpen.addressable
      lower := by omega
      upper := by omega }
    grows := by omega
    placed := fun other found => by
      rw [only other found]
      omega }

theorem Open.calls (deterministic : options.deterministicAllocation = true) {requests : List Request} (isOpen : manager.Open options)
    (inRange : ∀ a ∈ manager.calls host options requests, a.InRange options) :
    Separate options manager (manager.calls host options requests) := by
  induction requests generalizing manager with
  | nil => exact ⟨by simp [MemoryManager.calls], by simp [MemoryManager.calls], .nil⟩
  | cons request later ih =>
    unfold MemoryManager.calls at inRange ⊢
    rw [List.forall_mem_cons] at inRange
    obtain ⟨first, rest⟩ := inRange
    have advances := isOpen.call deterministic request first
    have same : (manager.call host options request).before = manager := rfl
    have separate := ih advances.openAfter rest
    generalize manager.call host options request = a at *
    subst same
    refine ⟨List.forall_mem_cons.mpr ⟨advances.correct, separate.correct⟩,
      List.forall_mem_cons.mpr ⟨?_, ?_⟩, List.pairwise_cons.mpr ⟨?_, separate.apart⟩⟩
    · intro mo found
      exact (advances.placed mo found).1
    · intro b member mo found
      exact Nat.le_trans advances.grows (separate.above b member mo found)
    · intro b member mo found mo' found'
      exact Nat.le_trans (advances.placed mo found).2 (separate.above b member mo' found')

theorem calls_separate (host : Host) (deterministic : options.deterministicAllocation = true)
    {newSpace spaceSize : Nat} (mapped : 0 < newSpace)
    (addressable : newSpace + spaceSize + options.redzoneSize ≤ 2 ^ 62) (requests : List Request)
    (inRange : ∀ a ∈ (create newSpace spaceSize).calls host options requests, a.InRange options) :
    (∀ a ∈ (create newSpace spaceSize).calls host options requests, a.Correct options) ∧
      ((create newSpace spaceSize).calls host options requests).Pairwise
        (Allocation.Apart options) := by
  have isOpen : (create newSpace spaceSize).Open options :=
    ⟨mapped, addressable, Nat.le_refl _, Nat.le_trans (Nat.le_add_right _ _) (Nat.le_add_right _ _)⟩
  have separate := isOpen.calls deterministic inRange
  exact ⟨separate.correct, separate.apart⟩

def sampleHost : Host := ⟨fun _ _ => 0, fun _ _ _ => 0⟩

def sampleOptions : MemoryOptions := ⟨false, true, 10⟩

def sampleSpace : MemoryManager := create 0x7ff30000000 (100 * 1024 * 1024)

/-- The greatest alignment sets the free slot back to the null page. -/
theorem calls_leave_space :
    ¬ ∀ a ∈ sampleSpace.calls sampleHost sampleOptions
        [⟨8, 2 ^ 63, by decide, by decide⟩, ⟨8, 8, by decide, by decide⟩],
      a.Correct sampleOptions := by
  intro correct
  have second := (correct _ (.tail _ (.head _))).inside ⟨0, 32, 8, false⟩ rfl
  exact absurd second.1 (by decide)

theorem calls_separate_sample :
    (∀ a ∈ sampleSpace.calls sampleHost sampleOptions
        [⟨0, 8, by decide, by decide⟩, ⟨2 ^ 40, 16, by decide, by decide⟩],
      a.Correct sampleOptions) ∧
      (sampleSpace.calls sampleHost sampleOptions
        [⟨0, 8, by decide, by decide⟩, ⟨2 ^ 40, 16, by decide, by decide⟩]).Pairwise
        (Allocation.Apart sampleOptions) := by
  refine calls_separate sampleHost (by decide) (by decide) (by decide) _ ?_
  simp only [calls, List.forall_mem_cons]
  exact ⟨.inr ⟨by decide, by decide⟩, .inr ⟨by decide, by decide⟩, by simp⟩

end MemoryManager

end NeuroMerge.Memory
