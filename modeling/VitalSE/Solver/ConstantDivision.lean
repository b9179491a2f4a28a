import VitalSE.Lib.APInt

/-!
# Arithmetic by constants

The bit tricks behind the translation of a product or a quotient by a constant:
the decomposition of a multiplicand into a difference of two sums of powers of
two, and the multipliers and shifts that replace a 32-bit division. They run on
machine words, so they are on `BitVec` here, and an assertion of theirs that
fails is an error with its text. A C++ division by zero is an error too.

A shift of a 32-bit word by 32, which `exp_base_2` makes when its argument is
32, shifts a zero there; it is taken as the zero it gives on the hardware.
-/

namespace VitalSE

/-- `assert`: an abort with the text of the failed condition. -/
def assert (p : Prop) [Decidable p] (message : String) : Except String Unit :=
  if p then .ok () else .error message

namespace Bits32

def withoutRightmostBit (x : BitVec 32) : BitVec 32 := x &&& (x - 1)

def indexOfSingleBit (x : BitVec 32) : Except String Nat := do
  assert (withoutRightmostBit x = 0) "withoutRightmostBit(x) == 0"
  let res := (if x &&& 0xFFFF0000#32 ≠ 0 then 16 else 0) +
    (if x &&& 0xFF00FF00#32 ≠ 0 then 8 else 0) +
    (if x &&& 0xF0F0F0F0#32 ≠ 0 then 4 else 0) +
    (if x &&& 0xCCCCCCCC#32 ≠ 0 then 2 else 0) +
    (if x &&& 0xAAAAAAAA#32 ≠ 0 then 1 else 0)
  assert (res < 32) "res < 32"
  assert (1#32 <<< res = x) "(UINT32_C(1) << res) == x"
  return res

end Bits32

namespace Bits64

/-- Precondition: `0 < N ≤ 64`. -/
def truncateToNBits (x : BitVec 64) (N : Nat) : Except String (BitVec 64) := do
  assert (0 < N ∧ N ≤ 64) "N > 0 && N <= 64"
  return x &&& (BitVec.allOnes 64 >>> (64 - N))

def isolateRightmostBit (x : BitVec 64) : BitVec 64 := x &&& -x

def isPowerOfTwo (x : BitVec 64) : Bool :=
  if x = 0 then false else x &&& (x - 1) = 0

def indexOfSingleBit (x : BitVec 64) : Except String Nat := do
  assert (x &&& (x - 1) = 0) "(x & (x - 1)) == 0"
  let res ← Bits32.indexOfSingleBit ((x ||| (x >>> 32)).setWidth 32)
  let res := if x &&& (0xFFFFFFFF#64 <<< 32) ≠ 0 then res + 32 else res
  assert (res < 64) "res < 64"
  assert (1#64 <<< res = x) "(UINT64_C(1) << res) == x"
  return res

end Bits64

/-- Asserts `x > 0`; the compiler's count of the zeros below the lowest set
bit. -/
def countTrailingZeroes (x : BitVec 64) : Except String Nat := do
  assert (x ≠ 0) "x > 0"
  return ((List.range 64).find? x.getLsbD).getD 64

/-! ## Counting bits -/

/-- The number of set bits. -/
def ones (x : BitVec 32) : BitVec 32 :=
  let x := x - ((x >>> 1) &&& 0x55555555#32)
  let x := ((x >>> 2) &&& 0x33333333#32) + (x &&& 0x33333333#32)
  let x := ((x >>> 4) + x) &&& 0x0f0f0f0f#32
  let x := x + (x >>> 8)
  let x := x + (x >>> 16)
  x &&& 0x0000003f#32

/-- Every bit below the highest set one is set, in five doublings. -/
def smear (x : BitVec 32) : BitVec 32 :=
  let x := x ||| (x >>> 1)
  let x := x ||| (x >>> 2)
  let x := x ||| (x >>> 4)
  let x := x ||| (x >>> 8)
  x ||| (x >>> 16)

/-- The number of leading zeros. -/
def ldz (x : BitVec 32) : BitVec 32 := 32#32 - ones (smear x)

/-- `LOG2_CEIL`. -/
def log2Ceil (x : BitVec 32) : Nat := (32#32 - ldz (x - 1)).toNat

/-- `exp_base_2`: `2 ^ n` for `n < 32`, and 0 for `n = 32`. -/
def expBase2 (n : Nat) : BitVec 32 :=
  let x := ~~~(BitVec.ofNat 32 n) &&& (BitVec.ofNat 32 n - 32#32)
  (x >>> 31) <<< n

/-! ## The constants -/

namespace MultConstants

/-- Where the run of ones below the single bit `q` ends; `q` is 0 if it ends at
the top of the word. -/
def runEnd (q : BitVec 64) : Except String Nat :=
  if q ≠ 0 then Bits64.indexOfSingleBit q else pure 64

/-- Add the run of ones from bit `low` up to but not including bit `high`. -/
def addRun (low high : Nat) (add sub : BitVec 64) : BitVec 64 × BitVec 64 :=
  let lowbit := 1#64 <<< low
  if high = low + 1 then (add ||| lowbit, sub) -- Just one bit...
  else
    -- Rewrite as +(1<<high) - (1<<low).
    -- Optimize +(1<<x) - (1<<(x+1)) to -(1<<x).
    let (add, sub) :=
      if low ≠ 0 ∧ add &&& (lowbit >>> 1) ≠ 0 then
        (add ^^^ (lowbit >>> 1), sub ^^^ (lowbit >>> 1))
      else (add, sub ||| lowbit)
    (if high ≠ 64 then add ||| (1#64 <<< high) else add, sub)

/-- One round of the loop: the lowest run of ones of `x` moves into `add` and
`sub`. -/
def step (x add sub : BitVec 64) :
    Except String (BitVec 64 × BitVec 64 × BitVec 64) := do
  let low ← countTrailingZeroes x
  let lowbit := 1#64 <<< low
  let p := x + lowbit
  let q := Bits64.isolateRightmostBit p
  let high ← runEnd q
  return (p ^^^ q, addRun low high add sub)

/-- The loop, for at most `fuel` rounds. A run of ones and the zero above it
go in each, so that 64 rounds are more than enough. -/
def loop : (fuel : Nat) → (x add sub : BitVec 64) →
    Except String (BitVec 64 × BitVec 64)
  | 0, x, add, sub => if x = 0 then .ok (add, sub) else .error "while (x)"
  | fuel + 1, x, add, sub =>
    if x = 0 then .ok (add, sub)
    else do
      let (x, add, sub) ← step x add sub
      loop fuel x add sub

end MultConstants

/-- Constants `add` and `sub` with `multiplicand = add - sub`. -/
def computeMultConstants64 (multiplicand : BitVec 64) :
    Except String (BitVec 64 × BitVec 64) := do
  let (add, sub) ← MultConstants.loop 64 multiplicand 0 0
  assert (multiplicand = add - sub) "multiplicand == add - sub"
  return (add, sub)

structure UDivConstants where
  mprime : BitVec 32
  sh1 : Nat
  sh2 : Nat

def computeUDivConstants32 (d : BitVec 32) : Except String UDivConstants := do
  let l := log2Ceil d
  let mid := expBase2 l - d
  assert (d ≠ 0) "division by zero"
  -- the source keeps `l` signed, so that `l - 1` is below zero when `l` is 0
  return ⟨BitVec.ofNat 32 (2 ^ 32 * mid.toNat / d.toNat + 1), min l 1,
    (max ((l : Int) - 1) 0).toNat⟩

structure SDivConstants where
  mprime : BitVec 32
  dsign : BitVec 32
  shpost : Nat

def computeSDivConstants32 (d : BitVec 32) : Except String SDivConstants := do
  let absD := d.toInt.natAbs
  let l := max 1 (log2Ceil (BitVec.ofNat 32 absD))
  let l := if absD = 2 ^ 31 then 31 else l
  let mid := expBase2 (l - 1)
  assert (absD ≠ 0) "division by zero"
  let m := BitVec.ofNat 64 (2 ^ 32 * mid.toNat / absD + 1)
  return ⟨(m - BitVec.ofNat 64 (2 ^ 32)).setWidth 32, d.sshiftRight 31, l - 1⟩

end VitalSE
