import NeuroMerge.Memory.Flushing
import NeuroMerge.Symbolic.Canonical

/-!
# Accesses of several bytes

Reads and writes of any width in either byte order, at constant and at symbolic
offsets: a read finds the bytes at its offset and a write leaves them there,
however they are held.
-/

namespace NeuroMerge.Memory

open BitVec List Symbolic ObjectState

variable {guards : Guards} {ρ : Assignment} {o : Options} {context : Context} {fuel id : Nat}
  {os : ObjectState} {c : Contents} {offset width : Nat}

open ObjectState (byteIndex)

variable {n i : Nat}

theorem byteIndex_lt (within : i < n) : byteIndex context n i < n := by
  rw [byteIndex]
  split <;> omega

theorem byteIndex_byteIndex (within : i < n) : byteIndex context n (byteIndex context n i) = i := by
  rw [byteIndex, byteIndex]
  split <;> omega

def ValidWidth (width : Nat) : Prop := width = 1 ∨ 0 < width ∧ width = width / 8 * 8

def numBytes (width : Nat) : Nat := if width = 1 then 1 else width / 8

def Loads (context : Context) (c : Contents) (offset : Nat) {width : Nat} (v : BitVec width) :
    Prop :=
  if width = 1 then v = ((c offset).extractLsb' 0 1).setWidth width
  else ∀ i, i < width / 8 → v.extractLsb' (8 * i) 8 = c (offset + byteIndex context (width / 8) i)

def Contents.store (context : Context) (c : Contents) (offset : Nat) {width : Nat}
    (v : BitVec width) : Contents :=
  if width = 1 then Function.update c offset (v.setWidth 8)
  else fun position =>
    if offset ≤ position ∧ position < offset + width / 8 then
      v.extractLsb' (8 * byteIndex context (width / 8) (position - offset)) 8
    else c position

def Contents.storeBytes (context : Context) (c : Contents) (offset n : Nat) (bytes : Contents)
    (positions : List Nat) : Contents :=
  positions.foldl (fun c i => Function.update c (offset + byteIndex context n i) (bytes i)) c

theorem Contents.storeBytes_apply (bytes : Contents) {k : Nat} (within : k ≤ n) (position : Nat) :
    c.storeBytes context offset n bytes (List.range k) position =
      if offset ≤ position ∧ position < offset + n ∧
          byteIndex context n (position - offset) < k then bytes (byteIndex context n (position - offset)) else c position := by
  induction k with
  | zero => simp [storeBytes]
  | succ k ih =>
    have before := ih (by omega)
    rw [storeBytes] at before ⊢
    rw [range_succ, foldl_append]
    simp only [foldl_cons, foldl_nil, Function.update_apply]
    have self : byteIndex context n (byteIndex context n k) = k := byteIndex_byteIndex (by omega)
    have inside : byteIndex context n k < n := byteIndex_lt (by omega)
    by_cases hit : position = offset + byteIndex context n k
    · subst hit
      simp [self, inside]
    · rw [if_neg hit, before]
      have other : offset ≤ position → position < offset + n → byteIndex context n (position - offset) ≠ k := by
        intro above below same
        apply hit
        rw [← same, byteIndex_byteIndex (by omega)]
        omega
      by_cases above : offset ≤ position ∧ position < offset + n
      · have different := other above.1 above.2
        have smaller : byteIndex context n (position - offset) < k + 1 ↔ byteIndex context n (position - offset) < k := by omega
        simp only [smaller]
      · rw [if_neg (by tauto), if_neg (by tauto)]

theorem Contents.storeBytes_eq_store {width : Nat} (v : BitVec width) (whole : width ≠ 1) :
    c.storeBytes context offset (width / 8) (fun i => v.extractLsb' (8 * i) 8) (List.range (width / 8)) = c.store context offset v := by
  funext position
  rw [storeBytes_apply _ (Nat.le_refl _), store, if_neg whole]
  by_cases inside : offset ≤ position ∧ position < offset + width / 8
  · have below : byteIndex context (width / 8) (position - offset) < width / 8 := byteIndex_lt (by omega)
    simp [inside, below]
  · rw [if_neg (by tauto), if_neg inside]

theorem split_range {item : Nat} {seen remaining : List Nat} (split : List.range n = seen ++ item :: remaining) :
    item = seen.length ∧ item < n ∧ seen = List.range seen.length := by
  have length : seen.length < n := by
    have lengths := congrArg List.length split
    simp at lengths
    omega
  have here : (List.range n)[seen.length]? = some item := by simp [split]
  have first : (List.range n).take seen.length = seen := by simp [split]
  rw [getElem?_range length] at here
  rw [take_range, Nat.min_eq_left (Nat.le_of_lt length)] at first
  simp only [Option.some.injEq] at here
  exact ⟨here.symm, here ▸ length, first.symm⟩

variable {e : Expr} {position : BitVec n}

section Read

def Joined (guards : Guards) (ρ : Assignment) (context : Context) (c : Contents)
    (offset n k : Nat) : Option Expr → Prop
  | none => k = 0
  | some e => 0 < k ∧ ∃ v : BitVec (k * 8), Denotes guards ρ e v ∧
      ∀ i, i < k → v.extractLsb' (i * 8) 8 = c (offset + byteIndex context n i)

theorem Joined.first (denotes : Denotes guards ρ e (c (offset + byteIndex context n 0))) :
    Joined guards ρ context c offset n 1 (some e) := by
  refine ⟨Nat.one_pos, c (offset + byteIndex context n 0), denotes, ?_⟩
  intro i within
  obtain rfl : i = 0 := by omega
  exact extractLsb'_eq_self

theorem Joined.next {joined : Expr} {k : Nat} {b : BitVec 8} {v : BitVec (k * 8)}
    (previous : ∀ i, i < k → v.extractLsb' (i * 8) 8 = c (offset + byteIndex context n i))
    (here : b = c (offset + byteIndex context n k)) (denotes : Denotes guards ρ joined (b ++ v)) :
    Joined guards ρ context c offset n (k + 1) (some joined) := by
  refine ⟨Nat.succ_pos k, (b ++ v).cast (by omega), denotes.cast (by omega), ?_⟩
  intro i within
  rw [extractLsb'_cast]
  by_cases earlier : i < k
  · rw [extractLsb'_append_of_lt earlier]
    exact previous i earlier
  · obtain rfl : i = k := by omega
    rw [extractLsb'_append_of_eq rfl]
    exact here

theorem readBytes_represents
    {readByte : ObjectState → Nat → Nat → Except Fault (Expr × ObjectState × Nat)} (represents : Represents guards ρ os c)
    (reads : ∀ os' id i, Represents guards ρ os' c → SameFrame os os' → i < n →
      Satisfies (Excused guards ρ)
        (fun result => Denotes guards ρ result.1 (c (offset + i)) ∧
          Represents guards ρ result.2.1 c ∧ SameFrame os result.2.1) (readByte os' id i)) :
    Satisfies (Excused guards ρ)
      (fun result => Joined guards ρ context c offset n n result.1 ∧
        Represents guards ρ result.2.1 c ∧ SameFrame os result.2.1) (os.readBytes context fuel id readByte n) := by
  have loop : Satisfies (Excused guards ρ) (fun result => Joined guards ρ context c offset n (List.range n).length result.1 ∧
        Represents guards ρ result.2.1 c ∧ SameFrame os result.2.1)
      (os.readBytes context fuel id readByte n) := by
    apply Satisfies.foldlM fun seen (result : Option Expr × ObjectState × Nat) =>
      Joined guards ρ context c offset n seen.length result.1 ∧ Represents guards ρ result.2.1 c ∧ SameFrame os result.2.1
    · exact ⟨rfl, represents, SameFrame.refl os⟩
    · intro seen i remaining state split valid
      obtain ⟨res, os', id'⟩ := state
      obtain ⟨joined, represents', frame⟩ := valid
      obtain ⟨rfl, within, -⟩ := split_range split
      apply Satisfies.bind (reads os' id' _ represents' frame (byteIndex_lt within))
      intro result facts
      obtain ⟨denotes, represents'', frame'⟩ := facts
      rw [length_append, length_singleton]
      cases res with
      | none =>
        have empty : seen.length = 0 := joined
        rw [empty] at denotes ⊢
        exact ⟨Joined.first denotes, represents'', frame'⟩
      | some res =>
        obtain ⟨-, v, denotesRes, previous⟩ := joined
        apply Satisfies.bind (ConcatExpr.create_builds denotes denotesRes)
        intro concatenated denotesConcatenated
        exact ⟨Joined.next previous rfl denotesConcatenated, represents'', frame'⟩
  simpa only [length_range] using loop

def Loaded (guards : Guards) (ρ : Assignment) (context : Context) (c : Contents)
    (offset width : Nat) (res : Option Expr) : Prop :=
  ∃ (e : Expr) (v : BitVec width), res = some e ∧ Denotes guards ρ e v ∧ Loads context c offset v

theorem Joined.loaded {res : Option Expr} (valid : ValidWidth width) (whole : width ≠ 1)
    (joined : Joined guards ρ context c offset (width / 8) (width / 8) res) : Loaded guards ρ context c offset width res := by
  obtain ⟨positive, bytes⟩ := valid.resolve_left whole
  cases res with
  | none =>
    have empty : width / 8 = 0 := joined
    omega
  | some e =>
    obtain ⟨-, v, denotes, slices⟩ := joined
    refine ⟨e, v.cast bytes.symm, rfl, denotes.cast bytes.symm, ?_⟩
    rw [Loads, if_neg whole]
    intro i within
    rw [extractLsb'_cast, Nat.mul_comm 8 i]
    exact slices i within

theorem loaded_bit (denotes : Denotes guards ρ e ((c offset).extractLsb' 0 1)) : Loaded guards ρ context c offset 1 (some e) := by
  refine ⟨e, _, rfl, denotes, ?_⟩
  rw [Loads, if_pos rfl, setWidth_eq]

def ReadFinds (guards : Guards) (ρ : Assignment) (context : Context) (os : ObjectState)
    (c : Contents) (offset width : Nat) (result : Option Expr × ObjectState × Nat) : Prop :=
  Loaded guards ρ context c offset width result.1 ∧ Represents guards ρ result.2.1 c ∧
    SameFrame os result.2.1

theorem read_of_bytes {readByte : ObjectState → Nat → Nat → Except Fault (Expr × ObjectState × Nat)}
    {readBool : Except Fault (Expr × ObjectState × Nat)} (valid : ValidWidth width) (represents : Represents guards ρ os c)
    (readsBool : width = 1 → Satisfies (Excused guards ρ)
      (fun result => Denotes guards ρ result.1 (c offset) ∧
        Represents guards ρ result.2.1 c ∧ SameFrame os result.2.1) readBool)
    (reads : width ≠ 1 → ∀ os' id i, Represents guards ρ os' c → SameFrame os os' →
      i < width / 8 → Satisfies (Excused guards ρ)
        (fun result => Denotes guards ρ result.1 (c (offset + i)) ∧
          Represents guards ρ result.2.1 c ∧ SameFrame os result.2.1) (readByte os' id i)) :
    Satisfies (Excused guards ρ) (ReadFinds guards ρ context os c offset width)
      (if width = 1 then do
        let (byte, os, id) ← readBool
        let bit ← ExtractExpr.create fuel byte 0 1
        pure (some bit, os, id)
      else do
        require (width = width / 8 * 8) .invalidSize
        os.readBytes context fuel id readByte (width / 8)) := by
  by_cases bool : width = 1
  · subst bool
    apply Satisfies.bind (readsBool rfl)
    intro result facts
    obtain ⟨denotes, represents', frame⟩ := facts
    apply Satisfies.bind (ExtractExpr.create_builds (w := 1) denotes (by decide) (by decide))
    intro bit denotesBit
    exact ⟨loaded_bit denotesBit, represents', frame⟩
  · rw [if_neg bool]
    apply require_satisfies _ fun fails => absurd (valid.resolve_left bool).2 fails
    intro _
    apply (readBytes_represents represents (reads bool)).mono
    intro result facts
    exact ⟨facts.1.loaded valid bool, facts.2⟩

theorem read_represents (admits : Admits o guards ρ) (represents : Represents guards ρ os c)
    (valid : ValidWidth width) (within : offset + numBytes width ≤ os.size) :
    Satisfies (Excused guards ρ) (ReadFinds guards ρ context os c offset width) (os.read o context fuel id offset width) := by
  rw [numBytes] at within
  apply read_of_bytes valid represents
  · intro bool
    rw [if_pos bool] at within
    exact read8_represents admits represents (by omega)
  · intro whole os' id i represents' frame inside
    rw [if_neg whole] at within
    apply (read8_represents admits represents' (by rw [frame.size]; omega)).mono
    intro result facts
    exact ⟨facts.1, facts.2.1, frame.trans facts.2.2⟩

theorem position_builds (admits : Admits o guards ρ) {position : BitVec 32} (folded : e.Folded)
    (compound : e.constant? = none) (denotes : Denotes guards ρ e position) (within : position.toNat + i < 2 ^ 32) :
    Satisfies (Excused guards ρ)
      (fun index => index.constant? = none ∧
        ∃ p : BitVec 32, Denotes guards ρ index p ∧ p.toNat = position.toNat + i)
      (AddExpr.create o fuel e (.constant (.alloc i 32))) := by
  have wide : (ConstantExpr.alloc i 32).width ≠ 1 := by simp [ConstantExpr.alloc]
  have builds : Builds guards ρ _ (AddExpr.create o fuel e (.constant (.alloc i 32))) :=
    AddExpr.create_builds admits.allowed denotes (.alloc i)
  apply (builds.and (AddExpr.create_compound wide folded compound)).mono
  intro index facts
  refine ⟨facts.2, _, facts.1, ?_⟩
  rw [toNat_add, toNat_ofNat, Nat.mod_eq_of_lt (a := i) (by omega)]
  exact Nat.mod_eq_of_lt within

theorem offset_builds (folded : e.Folded) (denotes : Denotes guards ρ e position) (within : position.toNat < 2 ^ 32) :
    Satisfies (Excused guards ρ)
      (fun offset => offset.Folded ∧
        ∃ p : BitVec 32, Denotes guards ρ offset p ∧ p.toNat = position.toNat) (ZExtExpr.create fuel e 32) := by
  have builds : Builds guards ρ _ (ZExtExpr.create fuel e 32) := ZExtExpr.create_builds denotes (by decide)
  apply (builds.and (ZExtExpr.create_folded folded 32)).mono
  intro offset facts
  refine ⟨facts.2, _, facts.1, ?_⟩
  rw [toNat_setWidth]
  exact Nat.mod_eq_of_lt within

theorem readExpr_represents (admits : Admits o guards ρ) (represents : Represents guards ρ os c)
    (valid : ValidWidth width) (folded : e.Folded) (denotes : Denotes guards ρ e position)
    (within : position.toNat + numBytes width ≤ os.size) :
    Satisfies (Excused guards ρ) (ReadFinds guards ρ context os c position.toNat width) (os.readExpr o context fuel id e width) := by
  have narrow := represents.narrow
  apply Satisfies.bind (offset_builds folded denotes (by omega))
  intro offset facts
  obtain ⟨foldedOffset, p, denotesOffset, same⟩ := facts
  cases isConstant : offset.constant? with
  | some ce =>
    cases denotesOffset.constant? isConstant
    rw [← same] at within ⊢
    exact read_represents admits represents valid within
  | none =>
    rw [numBytes] at within
    apply read_of_bytes valid represents
    · intro bool
      rw [if_pos bool] at within
      rw [← same]
      exact read8Symbolic_represents admits represents isConstant denotesOffset (by omega)
    · intro whole os' id i represents' frame inside
      rw [if_neg whole] at within
      apply Satisfies.bind (position_builds admits foldedOffset isConstant denotesOffset (by omega))
      intro index indexFacts
      obtain ⟨compound, q, denotesIndex, here⟩ := indexFacts
      rw [← same, ← here]
      apply (read8Symbolic_represents admits represents' compound denotesIndex (by rw [frame.size]; omega)).mono
      intro result facts
      exact ⟨facts.1, facts.2.1, frame.trans facts.2.2⟩

end Read

variable {value : Expr} {v : BitVec width}

section Write

def WriteLeaves (guards : Guards) (ρ : Assignment) (os : ObjectState) (c : Contents)
    (os' : ObjectState) : Prop :=
  Represents guards ρ os' c ∧ SameFrame os os'

theorem writeBytes_represents {writeByte : ObjectState → Nat → Expr → Except Fault ObjectState}
    (valid : ValidWidth width) (whole : width ≠ 1) (represents : Represents guards ρ os c) (denotes : Denotes guards ρ value v)
    (writes : ∀ os' c' i byte content, Represents guards ρ os' c' → SameFrame os os' →
      i < width / 8 → Denotes guards ρ byte (content : BitVec 8) →
      Satisfies (Excused guards ρ) (WriteLeaves guards ρ os (Function.update c' (offset + i) content))
        (writeByte os' i byte)) :
    Satisfies (Excused guards ρ) (WriteLeaves guards ρ os (c.store context offset v)) (os.writeBytes context fuel writeByte value) := by
  have bytes := (valid.resolve_left whole).2
  rw [writeBytes, denotes.width]
  apply require_satisfies _ fun fails => absurd bytes fails
  intro _
  rw [← Contents.storeBytes_eq_store v whole]
  apply Satisfies.foldlM fun seen state => WriteLeaves guards ρ os
    (c.storeBytes context offset (width / 8) (fun i => v.extractLsb' (8 * i) 8) seen) state
  · exact ⟨represents, SameFrame.refl os⟩
  · intro seen i remaining state split leaves
    obtain ⟨represents', frame⟩ := leaves
    obtain ⟨-, within, -⟩ := split_range split
    apply Satisfies.bind (ExtractExpr.create_builds (w := 8) denotes (by decide) (by omega))
    intro byte denotesByte
    rw [Contents.storeBytes, foldl_append]
    exact writes state _ _ byte _ represents' frame (byteIndex_lt within) denotesByte

theorem writeBool_denotes (denotes : Denotes guards ρ value v) : Builds guards ρ (v.setWidth 8) (ZExtExpr.create fuel value 8) :=
  ZExtExpr.create_builds denotes (by decide)

theorem store_bool (bool : width = 1) : c.store context offset v = Function.update c offset (v.setWidth 8) := by
  rw [Contents.store, if_pos bool]

theorem writeGeneral_represents (valid : ValidWidth width) (represents : Represents guards ρ os c) (denotes : Denotes guards ρ value v) :
    Satisfies (Excused guards ρ) (WriteLeaves guards ρ os (c.store context offset v)) (os.writeGeneral context fuel offset value) := by
  rw [writeGeneral, denotes.width]
  by_cases bool : width = 1
  · rw [if_pos bool, store_bool bool]
    apply Satisfies.bind (writeBool_denotes denotes)
    intro byte denotesByte
    exact ⟨write8_represents represents offset denotesByte, (os.write8_frame offset byte).toSameFrame⟩
  · rw [if_neg bool]
    apply writeBytes_represents valid bool represents denotes
    intro os' c' i byte content represents' frame _ denotesByte
    exact ⟨write8_represents represents' (offset + i) denotesByte, frame.trans (os'.write8_frame (offset + i) byte).toSameFrame⟩

theorem writeNumber_represents (represents : Represents guards ρ os c) (v : BitVec width) (whole : width ≠ 1) :
    WriteLeaves guards ρ os (c.store context offset v) (os.writeNumber context offset (width / 8) v.toNat) := by
  rw [← Contents.storeBytes_eq_store v whole, writeNumber, Contents.storeBytes]
  generalize List.range (width / 8) = positions
  induction positions generalizing os c with
  | nil => exact ⟨represents, SameFrame.refl os⟩
  | cons i rest ih =>
    have byte : BitVec.ofNat 8 (v.toNat >>> (8 * i)) = v.extractLsb' (8 * i) 8 := rfl
    have written := write8Concrete_represents represents (offset + byteIndex context (width / 8) i) (v.extractLsb' (8 * i) 8)
    have frame := (os.write8Concrete_frame (offset + byteIndex context (width / 8) i) (v.extractLsb' (8 * i) 8)).toSameFrame
    obtain ⟨represents', frame'⟩ := ih written
    exact ⟨represents', frame.trans frame'⟩

theorem powerOfTwo_bytes : ∀ w : Fin 65, isPowerOfTwo w →
    (w : Nat) = w / 8 * 8 → (w : Nat) = 8 ∨ (w : Nat) = 16 ∨ (w : Nat) = 32 ∨ (w : Nat) = 64 := by
  decide

theorem write_represents (valid : ValidWidth width) (represents : Represents guards ρ os c) (denotes : Denotes guards ρ value v) :
    Satisfies (Excused guards ρ) (WriteLeaves guards ρ os (c.store context offset v)) (os.write context fuel offset value) := by
  have general : Satisfies (Excused guards ρ) (WriteLeaves guards ρ os (c.store context offset v))
      (os.writeGeneral context fuel offset value) :=
    writeGeneral_represents valid represents denotes
  rw [ObjectState.write]
  cases isConstant : value.constant? with
  | none => exact general
  | some ce =>
    cases denotes.constant? isConstant
    dsimp only
    split
    · rename_i short
      obtain ⟨narrow, power⟩ := short
      by_cases bool : width = 1
      · rw [if_pos (.inl bool), store_bool bool]
        have byte : BitVec.ofNat 8 v.toNat = v.setWidth 8 := ofNat_toNat 8 v
        rw [byte]
        exact ⟨write8Concrete_represents represents offset _, (os.write8Concrete_frame offset _).toSameFrame⟩
      · have sizes := powerOfTwo_bytes ⟨width, by omega⟩ power (valid.resolve_left bool).2
        dsimp only at sizes
        have number : WriteLeaves guards ρ os (c.store context offset v) (os.writeNumber context offset (width / 8) v.toNat) :=
          writeNumber_represents represents v bool
        by_cases byte : width = 8
        · subst byte
          simpa [writeNumber, byteIndex] using number
        · rw [if_neg (by omega), if_pos (by omega)]
          exact number
    · exact general

theorem writeExpr_represents (admits : Admits o guards ρ) (represents : Represents guards ρ os c)
    (valid : ValidWidth width) (denotes : Denotes guards ρ value v) (folded : e.Folded)
    (denotesOffset : Denotes guards ρ e position) (within : position.toNat + numBytes width ≤ os.size) :
    Satisfies (Excused guards ρ) (WriteLeaves guards ρ os (c.store context position.toNat v)) (os.writeExpr o context fuel e value) := by
  have narrow := represents.narrow
  apply Satisfies.bind (offset_builds folded denotesOffset (by omega))
  intro offset facts
  obtain ⟨foldedOffset, p, denotesP, same⟩ := facts
  cases isConstant : offset.constant? with
  | some ce =>
    cases denotesP.constant? isConstant
    rw [← same]
    exact write_represents valid represents denotes
  | none =>
    rw [numBytes] at within
    rw [denotes.width]
    by_cases bool : width = 1
    · rw [if_pos bool, store_bool bool, ← same]
      apply Satisfies.bind (writeBool_denotes denotes)
      intro byte denotesByte
      exact write8Symbolic_represents represents isConstant denotesP denotesByte
    · rw [if_neg bool] at within ⊢
      apply writeBytes_represents valid bool represents denotes
      intro os' c' i byte content represents' frame inside denotesByte
      apply Satisfies.bind (position_builds admits foldedOffset isConstant denotesP (by omega))
      intro index indexFacts
      obtain ⟨compound, q, denotesIndex, here⟩ := indexFacts
      rw [← same, ← here]
      apply (write8Symbolic_represents represents' compound denotesIndex denotesByte).mono
      intro result leaves
      exact ⟨leaves.1, frame.trans leaves.2⟩

end Write

end NeuroMerge.Memory
