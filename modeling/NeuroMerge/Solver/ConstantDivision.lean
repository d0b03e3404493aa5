import Mathlib.Tactic.Common

/-!
# Constant division

`Bits.h` and `ConstantDivision.cpp`: the constants by which a multiplication or a
division by a constant is done with shifts and sums.
-/

namespace NeuroMerge.ConstantDivision

namespace Bits32

def indexOfSingleBit (x : BitVec 32) : Nat :=
  (if x &&& 0xFFFF0000#32 ≠ 0#32 then 16 else 0) + (if x &&& 0xFF00FF00#32 ≠ 0#32 then 8 else 0) +
    (if x &&& 0xF0F0F0F0#32 ≠ 0#32 then 4 else 0) + (if x &&& 0xCCCCCCCC#32 ≠ 0#32 then 2 else 0) +
    (if x &&& 0xAAAAAAAA#32 ≠ 0#32 then 1 else 0)

end Bits32

namespace Bits64

def truncateToNBits (x : BitVec 64) (n : Nat) : BitVec 64 := x &&& (BitVec.allOnes 64 >>> (64 - n))

def isolateRightmostBit (x : BitVec 64) : BitVec 64 := x &&& -x

def isPowerOfTwo (x : BitVec 64) : Bool := x ≠ 0#64 ∧ x &&& (x - 1#64) = 0#64

def indexOfSingleBit (x : BitVec 64) : Nat :=
  Bits32.indexOfSingleBit ((x ||| x >>> 32).setWidth 32) +
    (if x &&& (0xFFFFFFFF#64 <<< 32) ≠ 0#64 then 32 else 0)

def indexOfRightmostBit (x : BitVec 64) : Nat := indexOfSingleBit (isolateRightmostBit x)

end Bits64

open Bits64

/-! ## Multiplication -/

/-- One round of `ComputeMultConstants64`: the rightmost region of ones of `x` goes to the
constants, and the rest of `x` is left. -/
def multRound (x add sub : BitVec 64) : BitVec 64 × BitVec 64 × BitVec 64 :=
  let low := indexOfRightmostBit x
  let lowbit := 1#64 <<< low
  let p := x + lowbit
  let q := isolateRightmostBit p
  let high := if q ≠ 0#64 then indexOfSingleBit q else 64
  if high = low + 1 then (p ^^^ q, add ||| lowbit, sub)
  else
    let (add, sub) :=
      if low ≠ 0 ∧ add &&& (lowbit >>> 1) ≠ 0#64 then
        (add ^^^ (lowbit >>> 1), sub ^^^ (lowbit >>> 1))
      else (add, sub ||| lowbit)
    (p ^^^ q, if high ≠ 64 then add ||| 1#64 <<< high else add, sub)

def multLoop : Nat → BitVec 64 → BitVec 64 → BitVec 64 → Option (BitVec 64 × BitVec 64)
  | 0, _, _, _ => none
  | fuel + 1, x, add, sub =>
    if x = 0#64 then some (add, sub)
    else
      let (x, add, sub) := multRound x add sub
      multLoop fuel x add sub

/-- There is a round for at most every other bit. -/
def computeMultConstants64 (multiplicand : BitVec 64) : Option (BitVec 64 × BitVec 64) := do
  let (add, sub) ← multLoop 65 multiplicand 0#64 0#64
  if multiplicand = add - sub then some (add, sub) else none

/-! ## Division -/

def ones (x : BitVec 32) : BitVec 32 :=
  let x := x - (x >>> 1 &&& 0x55555555#32)
  let x := (x >>> 2 &&& 0x33333333#32) + (x &&& 0x33333333#32)
  let x := (x >>> 4) + x &&& 0x0f0f0f0f#32
  let x := x + x >>> 8
  let x := x + x >>> 16
  x &&& 0x0000003f#32

def fillOnes (x : BitVec 32) : BitVec 32 :=
  let x := x ||| x >>> 1
  let x := x ||| x >>> 2
  let x := x ||| x >>> 4
  let x := x ||| x >>> 8
  x ||| x >>> 16

def ldz (x : BitVec 32) : BitVec 32 := 32#32 - ones (fillOnes x)

def log2Ceil (x : BitVec 32) : BitVec 32 := 32#32 - ldz (x - 1#32)

/-- A shift by 32, of zero, is zero here. -/
def expBase2 (n : BitVec 32) : BitVec 32 :=
  let x := ~~~ n &&& (n - 32#32)
  let x := x >>> 31
  x <<< n

structure UDivConstants where
  mprime : BitVec 32
  sh1 : BitVec 32
  sh2 : BitVec 32
  deriving DecidableEq, Repr

def computeUDivConstants32 (d : BitVec 32) : UDivConstants :=
  let l := log2Ceil d
  let mid := expBase2 l - d
  { mprime := (((1#64 <<< 32) * mid.setWidth 64) / d.setWidth 64 + 1#64).setWidth 32
    sh1 := if (1#32).slt l then 1#32 else l
    sh2 := if (l - 1#32).slt 0#32 then 0#32 else l - 1#32 }

structure SDivConstants where
  mprime : BitVec 32
  dsign : BitVec 32
  shpost : BitVec 32
  deriving DecidableEq, Repr

def computeSDivConstants32 (d : BitVec 32) : SDivConstants :=
  let wide := d.signExtend 64
  let absD := if (0#64).slt wide then wide else - wide
  let l := if (log2Ceil (absD.setWidth 32)).ult 1#32 then 1#32 else log2Ceil (absD.setWidth 32)
  let l := if absD = 1#64 <<< 31 then 31#32 else l
  let mid := expBase2 (l - 1#32)
  let m := ((1#64 <<< 32) * mid.setWidth 64) / absD + 1#64
  { mprime := (m - 1#64 <<< 32).setWidth 32
    dsign := d.sshiftRight 31
    shpost := l - 1#32 }

end NeuroMerge.ConstantDivision
