import NeuroMerge.Memory.WideAccess

/-!
# The value of a byte

What reading a byte at a constant offset gives, also for an object whose update
list has fallen behind its concrete store.
-/

namespace NeuroMerge.Memory

open Symbolic

variable {guards : Guards} {ρ : Assignment} {o : Options} {context : Context} {fuel id : Nat}
  {os os' : ObjectState} {offset i : Nat}

namespace ObjectState

def byte (ρ : Assignment) (os : ObjectState) (i : Nat) : BitVec 8 :=
  if os.isByteConcrete i then os.concreteStore i
  else
    match os.knownSymbolic? i with
    | some value => value.eval ρ 8
    | none => os.updates.byte ρ os.size i

structure Valid (guards : Guards) (os : ObjectState) : Prop where
  narrow : os.size < 2 ^ 32
  updates : os.updates.Valid guards os.size
  known : ∀ {i e}, i < os.size → os.knownSymbolic? i = some e → e.WellFormed guards ∧ e.width = 8
  cached : ∀ {i}, i < os.size → os.isByteFlushed i = false →
    os.isByteConcrete i = true ∨ os.knownSymbolic? i ≠ none

theorem byte_of_view (same : os'.view i = os.view i) (listed : os'.updates.byte ρ os'.size i = os.updates.byte ρ os.size i) :
    os'.byte ρ i = os.byte ρ i := by
  have concrete : os'.isByteConcrete i = os.isByteConcrete i := congrArg ByteView.concrete same
  have known : os'.knownSymbolic? i = os.knownSymbolic? i := congrArg ByteView.known same
  have stored : os'.concreteStore i = os.concreteStore i := congrArg ByteView.stored same
  rw [byte, byte, concrete, known, stored, listed]

end ObjectState

structure SameBytes (ρ : Assignment) (os os' : ObjectState) : Prop extends SameFrame os os' where
  bytes : ∀ i < os.size, os'.byte ρ i = os.byte ρ i

theorem SameBytes.refl (os : ObjectState) : SameBytes ρ os os :=
  ⟨SameFrame.refl os, fun _ _ => rfl⟩

namespace ObjectState

theorem read8_byte (admits : Admits o guards ρ) (valid : os.Valid guards) (within : offset < os.size) :
    Satisfies (Excused guards ρ)
      (fun result => Denotes guards ρ result.1 (os.byte ρ offset) ∧ result.2.1.Valid guards ∧
        SameBytes ρ os result.2.1) (os.read8 o fuel id offset) := by
  rw [read8, byte]
  cases concrete : os.isByteConcrete offset with
  | true => exact ⟨.constant _, valid, SameBytes.refl os⟩
  | false =>
    cases known : os.knownSymbolic? offset with
    | some value =>
      obtain ⟨wellFormed, width⟩ := valid.known within known
      exact ⟨⟨wellFormed, width, rfl⟩, valid, SameBytes.refl os⟩
    | none =>
      have flushed : os.isByteFlushed offset = true := by
        by_contra unflushed
        rw [Bool.not_eq_true] at unflushed
        cases valid.cached within unflushed with
        | inl isConcrete => exact absurd (concrete.symm.trans isConcrete) Bool.false_ne_true
        | inr isKnown => exact isKnown known
      apply require_satisfies _ fun fails => absurd flushed fails
      intro _
      apply (getUpdates_valid valid.narrow valid.updates).bind
      intro result facts
      obtain ⟨updates, os', id'⟩ := result
      dsimp only at facts ⊢
      obtain ⟨rfl, validUpdates, hasRoot, kept⟩ := facts
      have validAfter : ({ os with updates := updates } : ObjectState).Valid guards :=
        ⟨valid.narrow, validUpdates, valid.known, valid.cached⟩
      have same : SameBytes ρ os { os with updates := updates } :=
        ⟨⟨rfl, rfl, rfl, rfl⟩, fun i inside => byte_of_view rfl (kept i inside)⟩
      cases root : updates.root with
      | none => exact absurd root hasRoot
      | some root =>
        have position : (BitVec.ofNat 32 offset).toNat = offset := by
          exact Nat.mod_eq_of_lt (Nat.lt_trans within valid.narrow)
        apply Satisfies.bind (readExpr_builds admits validUpdates valid.narrow root (.alloc offset) (by rwa [position]))
        intro value denotes
        rw [position, kept offset within] at denotes
        exact ⟨denotes, validAfter, same⟩

structure Stored (guards : Guards) (ρ : Assignment) (os : ObjectState) (offset : Nat)
    (content : BitVec 8) (os' : ObjectState) : Prop extends SameFrame os os' where
  valid : os'.Valid guards
  bytes : ∀ i, os'.byte ρ i = if i = offset then content else os.byte ρ i

theorem Valid.stored (valid : os.Valid guards) (same : SameUpdates os os') {view : ByteView}
    (views : os'.view = Function.update os.view offset view) {content : BitVec 8}
    (known : ∀ {e}, view.known = some e → Denotes guards ρ e content)
    (held : if view.concrete then view.stored = content else view.known ≠ none) : Stored guards ρ os offset content os' := by
  have here : os'.view offset = view := by rw [views, Function.update_self]
  have there {i : Nat} (other : i ≠ offset) : os'.view i = os.view i := by
    rw [views, Function.update_of_ne other]
  refine ⟨same.toSameFrame, ⟨?_, ?_, ?_, ?_⟩, ?_⟩
  · rw [same.size]
    exact valid.narrow
  · rw [same.updates, same.size]
    exact valid.updates
  · intro i e within isKnown
    rw [same.size] at within
    by_cases written : i = offset
    · subst written
      have denotes := known ((congrArg ByteView.known here).symm.trans isKnown)
      exact ⟨denotes.wellFormed, denotes.width⟩
    · exact valid.known within ((congrArg ByteView.known (there written)).symm.trans isKnown)
  · intro i within unflushed
    rw [same.size] at within
    by_cases written : i = offset
    · subst written
      change (os'.view i).concrete = true ∨ (os'.view i).known ≠ none
      rw [here]
      split at held
      · exact .inl ‹_›
      · exact .inr held
    · change (os'.view i).concrete = true ∨ (os'.view i).known ≠ none
      rw [there written]
      exact valid.cached within ((congrArg ByteView.flushed (there written)).symm.trans unflushed)
  · intro i
    by_cases written : i = offset
    · subst written
      have concrete : os'.isByteConcrete i = view.concrete := congrArg ByteView.concrete here
      have isKnown : os'.knownSymbolic? i = view.known := congrArg ByteView.known here
      have stored : os'.concreteStore i = view.stored := congrArg ByteView.stored here
      rw [if_pos rfl, byte, concrete, isKnown, stored]
      split at held
      · rename_i isConcrete
        rw [if_pos isConcrete, held]
      · rename_i symbolic
        rw [if_neg symbolic]
        obtain ⟨e, isSome⟩ := Option.ne_none_iff_exists'.mp held
        rw [isSome]
        exact (known isSome).value
    · rw [if_neg written]
      exact byte_of_view (there written) (by rw [same.updates, same.size])

theorem write8Concrete_byte (valid : os.Valid guards) (offset : Nat) (value : BitVec 8) :
    Stored guards ρ os offset value (os.write8Concrete offset value) :=
  valid.stored (os.write8Concrete_frame offset value) (os.write8Concrete_view offset value) nofun rfl

theorem write8_byte (valid : os.Valid guards) (offset : Nat) {value : Expr} {content : BitVec 8}
    (denotes : Denotes guards ρ value content) : Stored guards ρ os offset content (os.write8 offset value) := by
  cases isConstant : value.constant? with
  | some ce =>
    cases denotes.constant? isConstant
    simpa [write8, isConstant] using write8Concrete_byte valid offset content
  | none =>
    apply valid.stored (os.write8_frame offset value) (os.write8_view offset isConstant)
    · intro e same
      exact Option.some.inj same ▸ denotes
    · rintro ⟨⟩

theorem write_byte (valid : os.Valid guards) (offset : Nat) {value : Expr} {content : BitVec 8}
    (denotes : Denotes guards ρ value content) :
    Satisfies (Excused guards ρ) (Stored guards ρ os offset content) (os.write context fuel offset value) := by
  rw [write]
  cases isConstant : value.constant? with
  | some ce =>
    cases denotes.constant? isConstant
    have stored := write8Concrete_byte (ρ := ρ) valid offset content
    simpa [isPowerOfTwo] using stored
  | none =>
    have position : byteIndex context 1 0 = 0 := by
      rw [byteIndex]
      split <;> rfl
    rw [writeGeneral, if_neg (by rw [denotes.width]; decide), writeBytes, denotes.width]
    apply require_satisfies _ fun fails => absurd rfl fails
    intro _
    rw [List.range_one, List.foldlM_cons, bind_assoc]
    apply Satisfies.bind (ExtractExpr.create_builds (w := 8) denotes (by decide) (by decide))
    intro byte denotesByte
    rw [position]
    exact write8_byte valid offset (denotesByte.of_eq BitVec.extractLsb'_eq_self)

end ObjectState

end NeuroMerge.Memory
