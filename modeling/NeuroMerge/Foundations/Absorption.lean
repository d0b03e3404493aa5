import Mathlib.Order.CompletePartialOrder
import Mathlib.Data.Set.Lattice
import Mathlib.Data.List.Perm.Basic

/-!
# Absorbing what overlaps

A set that takes in the items it overlaps, which may make it overlap further
ones. `close` repeats the scan until the set does not grow any more; `separate`
makes every item such a set in turn, until no two of them overlap.
-/

namespace NeuroMerge.Absorption

open List

variable {S I B : Type}

/-- A scan: whether the set has not grown so far, the set, the items it has taken in
and those it has left. -/
structure Scan (S I : Type) where
  done : Bool
  current : S
  taken : List I
  kept : List I

/-- `intersects` decides whether an item has to be taken in, `add` takes it in and says
whether the set has grown. -/
structure Operations (S I : Type) where
  intersects : S → I → Bool
  add : S → I → Bool × S

variable (operations : Operations S I)

def step (scan : Scan S I) (item : I) : Scan S I :=
  if operations.intersects scan.current item then
    let (modified, current) := operations.add scan.current item
    { scan with
      done := scan.done && !modified
      current := current
      taken := scan.taken ++ [item] }
  else { scan with kept := scan.kept ++ [item] }

def absorb (current : S) (items : List I) : Scan S I :=
  items.foldl (step operations) ⟨true, current, [], []⟩

/-- What a scan that has gone through the items has kept account of. -/
structure Accounts (items : List I) (scan : Scan S I) : Prop where
  perm : (scan.taken ++ scan.kept).Perm items
  shrinks : scan.done = false → scan.kept.length < items.length

variable {operations} {items : List I} {scan : Scan S I}

theorem Accounts.step (accounts : Accounts items scan) (item : I) : Accounts (items ++ [item]) (step operations scan item) := by
  have length := accounts.perm.length_eq
  rw [length_append] at length
  rw [Absorption.step]
  split
  · constructor
    · have moved : (scan.taken ++ [item] ++ scan.kept).Perm (scan.taken ++ scan.kept ++ [item]) := by
        rw [append_assoc, append_assoc]
        exact perm_append_comm.append_left scan.taken
      exact moved.trans (accounts.perm.append_right [item])
    · intro _
      rw [length_append, length_singleton]
      dsimp only
      omega
  · constructor
    · dsimp only
      rw [← append_assoc]
      exact accounts.perm.append_right [item]
    · intro grown
      have before := accounts.shrinks grown
      simp only [length_append, length_singleton]
      omega

theorem Accounts.foldl (accounts : Accounts items scan) (rest : List I) :
    Accounts (items ++ rest) (rest.foldl (Absorption.step operations) scan) := by
  induction rest generalizing items scan with
  | nil => simpa using accounts
  | cons item rest ih =>
    have stepped : Accounts (items ++ [item]) (Absorption.step operations scan item) := accounts.step item
    have next := ih stepped
    rwa [append_assoc] at next

theorem absorb_accounts (operations : Operations S I) (current : S) (items : List I) :
    Accounts items (absorb operations current items) := by
  have start : Accounts [] (⟨true, current, [], []⟩ : Scan S I) := ⟨.refl _, nofun⟩
  exact start.foldl items

variable (operations)

def close (current : S) (taken items : List I) : S × List I :=
  let scan := absorb operations current items
  if scan.done then (scan.current, taken ++ scan.taken)
  else close scan.current (taken ++ scan.taken) scan.kept
termination_by items.length
decreasing_by
  apply (absorb_accounts operations current items).shrinks
  simpa using ‹¬ scan.done = true›

theorem close_of_done {operations : Operations S I} {current : S} {taken items : List I}
    (done : (absorb operations current items).done = true) :
    close operations current taken items =
      ((absorb operations current items).current, taken ++ (absorb operations current items).taken) := by
  rw [close, if_pos done]

/-- What the operations do to the sets that are meant. -/
structure Laws (covers : S → Set B) (bytes : I → Set B) : Prop where
  apart : ∀ {s : S} {item : I}, operations.intersects s item = false →
    Disjoint (covers s) (bytes item)
  added : ∀ (s : S) (item : I), covers (operations.add s item).2 = covers s ∪ bytes item
  unchanged : ∀ {s : S} {item : I}, (operations.add s item).1 = false →
    covers (operations.add s item).2 = covers s

variable {operations} {covers : S → Set B} {bytes : I → Set B} {current : S}

/-- What a scan that started from a set has found out. -/
structure Finds (covers : S → Set B) (bytes : I → Set B) (start : Set B) (scan : Scan S I) :
    Prop where
  grows : start ⊆ covers scan.current
  taken : ∀ item ∈ scan.taken, bytes item ⊆ covers scan.current
  unchanged : scan.done = true → covers scan.current = start
  kept : scan.done = true → ∀ item ∈ scan.kept, Disjoint start (bytes item)

theorem Finds.step {start : Set B} (laws : Laws operations covers bytes) (finds : Finds covers bytes start scan) (item : I) :
    Finds covers bytes start (step operations scan item) := by
  rw [Absorption.step]
  split
  · have added := laws.added scan.current item
    constructor
    · dsimp only
      rw [added]
      exact Set.Subset.trans finds.grows Set.subset_union_left
    · intro other member
      rw [added]
      cases mem_append.mp member with
      | inl earlier => exact Set.Subset.trans (finds.taken other earlier) Set.subset_union_left
      | inr new =>
        rw [mem_singleton.mp new]
        exact Set.subset_union_right
    · intro done
      simp only [Bool.and_eq_true, Bool.not_eq_true'] at done
      exact (laws.unchanged done.2).trans (finds.unchanged done.1)
    · intro done
      simp only [Bool.and_eq_true] at done
      exact finds.kept done.1
  · rename_i separate
    refine ⟨finds.grows, finds.taken, finds.unchanged, ?_⟩
    intro done other member
    cases mem_append.mp member with
    | inl earlier => exact finds.kept done other earlier
    | inr new =>
      rw [mem_singleton.mp new, ← finds.unchanged done]
      exact laws.apart (by simpa using separate)

theorem absorb_finds (laws : Laws operations covers bytes) (current : S) (items : List I) :
    Finds covers bytes (covers current) (absorb operations current items) := by
  have start : Finds covers bytes (covers current) (⟨true, current, [], []⟩ : Scan S I) :=
    ⟨fun _ member => member, nofun, fun _ => rfl, fun _ => nofun⟩
  rw [absorb]
  generalize (⟨true, current, [], []⟩ : Scan S I) = scan at start
  induction items generalizing scan with
  | nil => exact start
  | cons item items ih => exact ih _ (start.step laws item)

theorem close_spec (laws : Laws operations covers bytes) (current : S) (taken items : List I) :
    ∃ absorbed left, (close operations current taken items).2 = taken ++ absorbed ∧
      (absorbed ++ left).Perm items ∧
      covers current ⊆ covers (close operations current taken items).1 ∧
      (∀ item ∈ absorbed, bytes item ⊆ covers (close operations current taken items).1) ∧
      ∀ item ∈ left, Disjoint (covers (close operations current taken items).1) (bytes item) := by
  have finds := absorb_finds laws current items
  have accounts := absorb_accounts operations current items
  rw [close]
  split
  case isTrue done =>
    refine ⟨_, _, rfl, accounts.perm, finds.grows, finds.taken, ?_⟩
    rw [finds.unchanged done]
    exact finds.kept done
  case isFalse grown =>
    have shrinks := accounts.shrinks (by simpa using grown)
    obtain ⟨absorbed, left, result, perm, grows, covered, apart⟩ := close_spec laws (absorb operations current items).current
      (taken ++ (absorb operations current items).taken) (absorb operations current items).kept
    refine ⟨(absorb operations current items).taken ++ absorbed, left, ?_, ?_, Set.Subset.trans finds.grows grows, ?_, apart⟩
    · rw [result, append_assoc]
    · rw [append_assoc]
      exact (perm.append_left _).trans accounts.perm
    · intro item member
      cases mem_append.mp member with
      | inl earlier => exact Set.Subset.trans (finds.taken item earlier) grows
      | inr later => exact covered item later
termination_by items.length

variable {good : S → Prop} {E : Type} {contents : S → List E}

section Separate

variable (operations : Operations S S)

/-- Each set absorbs those after it that it overlaps; also whether none has grown. -/
def pass : List S → Bool × List S
  | [] => (true, [])
  | current :: factors =>
    let scan := absorb operations current factors
    let (done, rest) := pass scan.kept
    (scan.done && done, scan.current :: rest)
termination_by factors => factors.length
decreasing_by
  have length := (absorb_accounts operations current factors).perm.length_eq
  rw [List.length_append] at length
  rw [List.length_cons]
  omega

theorem pass_length (factors : List S) :
    (pass operations factors).2.length ≤ factors.length ∧
      ((pass operations factors).1 = false → (pass operations factors).2.length < factors.length) := by
  cases factors with
  | nil => simp [pass]
  | cons current factors =>
    have accounts := absorb_accounts operations current factors
    have length := accounts.perm.length_eq
    rw [length_append] at length
    obtain ⟨shorter, shrinks⟩ := pass_length (absorb operations current factors).kept
    rw [pass]
    rw [length_cons, length_cons]
    constructor
    · omega
    · intro grown
      rw [Bool.and_eq_false_iff] at grown
      cases grown with
      | inl first =>
        have fewer := accounts.shrinks first
        omega
      | inr later =>
        have fewer := shrinks later
        omega
termination_by factors.length
decreasing_by
  rw [length_append] at length
  rw [length_cons]
  omega

def separate (factors : List S) : List S :=
  let passed := pass operations factors
  if passed.1 then passed.2 else separate passed.2
termination_by factors.length
decreasing_by
  apply (pass_length operations factors).2
  simpa using ‹¬ passed.1 = true›

variable {operations} {covers : S → Set B} {factors : List S}

section

variable (add : ∀ s item, good s → good item → good (operations.add s item).2)
include add

theorem absorb_preserves {current : S} (start : good current) (goodItems : ∀ item ∈ factors, good item) :
    good (absorb operations current factors).current ∧ ∀ item ∈ (absorb operations current factors).kept, good item := by
  have initial : ∀ item ∈ (⟨true, current, [], []⟩ : Scan S S).kept, good item := nofun
  rw [absorb]
  generalize isScan : (⟨true, current, [], []⟩ : Scan S S) = scan at initial
  have startScan : good scan.current := isScan ▸ start
  clear isScan start
  induction factors generalizing scan with
  | nil => exact ⟨startScan, initial⟩
  | cons item items ih =>
    have goodItem := goodItems item (by simp)
    apply ih fun other member => goodItems other (by simp [member])
    · rw [step]
      split
      · exact initial
      · intro other member
        cases mem_append.mp member with
        | inl earlier => exact initial other earlier
        | inr new => exact mem_singleton.mp new ▸ goodItem
    · rw [step]
      split
      · exact add _ _ startScan goodItem
      · exact startScan

theorem pass_preserves (start : ∀ factor ∈ factors, good factor) : ∀ factor ∈ (pass operations factors).2, good factor := by
  fun_induction pass operations factors with
  | case1 => exact nofun
  | case2 current factors scan done rest passed ih =>
    have goodFactors : ∀ factor ∈ factors, good factor := fun factor member =>
      start factor (mem_cons_of_mem current member)
    obtain ⟨goodCurrent, goodKept⟩ := absorb_preserves add (start current (by simp)) goodFactors
    intro factor member
    cases mem_cons.mp member with
    | inl first => exact first ▸ goodCurrent
    | inr later =>
      rw [passed] at ih
      exact ih goodKept factor later

theorem separate_preserves (start : ∀ factor ∈ factors, good factor) : ∀ factor ∈ separate operations factors, good factor := by
  fun_induction separate operations factors with
  | case1 factors passed done => exact pass_preserves add start
  | case2 factors passed grown ih => exact ih (pass_preserves add start)

end

section

variable (add : ∀ s item, contents (operations.add s item).2 = contents s ++ contents item)
include add

theorem absorb_contents (current : S) (factors : List S) :
    contents (absorb operations current factors).current =
      contents current ++ (absorb operations current factors).taken.flatMap contents := by
  have initial : contents (⟨true, current, [], []⟩ : Scan S S).current =
      contents current ++ (⟨true, current, [], []⟩ : Scan S S).taken.flatMap contents := by simp
  rw [absorb]
  generalize (⟨true, current, [], []⟩ : Scan S S) = scan at initial
  induction factors generalizing scan with
  | nil => exact initial
  | cons item items ih =>
    apply ih
    rw [step]
    split
    · dsimp only
      rw [add, initial, flatMap_append, append_assoc, flatMap_singleton]
    · exact initial

theorem pass_contents : ((pass operations factors).2.flatMap contents).Perm (factors.flatMap contents) := by
  fun_induction pass operations factors with
  | case1 => exact .refl _
  | case2 current factors scan done rest passed ih =>
    rw [passed] at ih
    have perm := (absorb_accounts operations current factors).perm
    rw [flatMap_cons, flatMap_cons, absorb_contents add, append_assoc]
    apply List.Perm.append_left
    have moved := perm.flatMap_right contents
    rw [flatMap_append] at moved
    exact (ih.append_left _).trans moved

theorem separate_contents : ((separate operations factors).flatMap contents).Perm (factors.flatMap contents) := by
  fun_induction separate operations factors with
  | case1 factors passed done => exact pass_contents add
  | case2 factors passed grown ih => exact ih.trans (pass_contents add)

end

theorem pass_disjoint (laws : Laws operations covers covers) (done : (pass operations factors).1 = true) :
    (∀ factor ∈ (pass operations factors).2, ∃ origin ∈ factors, covers factor = covers origin) ∧
      (pass operations factors).2.Pairwise fun first second => Disjoint (covers first) (covers second) := by
  fun_induction pass operations factors with
  | case1 => simp
  | case2 current factors scan done' rest passed ih =>
    simp only [Bool.and_eq_true] at done
    obtain ⟨scanDone, restDone⟩ := done
    rw [passed] at ih
    obtain ⟨origins, apart⟩ := ih restDone
    have finds := absorb_finds laws current factors
    have perm := (absorb_accounts operations current factors).perm
    constructor
    · intro factor member
      cases mem_cons.mp member with
      | inl first =>
        rw [first]
        exact ⟨current, by simp, finds.unchanged scanDone⟩
      | inr later =>
        obtain ⟨origin, kept, same⟩ := origins factor later
        have member : origin ∈ factors := perm.subset (mem_append_right _ kept)
        exact ⟨origin, by simp [member], same⟩
    · apply List.Pairwise.cons _ apart
      intro factor later
      obtain ⟨origin, kept, same⟩ := origins factor later
      rw [same, finds.unchanged scanDone]
      exact finds.kept scanDone origin kept

theorem separate_disjoint (laws : Laws operations covers covers) :
    (separate operations factors).Pairwise fun first second => Disjoint (covers first) (covers second) := by
  fun_induction separate operations factors with
  | case1 factors passed done => exact (pass_disjoint laws done).2
  | case2 factors passed grown ih => exact ih

end Separate

end NeuroMerge.Absorption
