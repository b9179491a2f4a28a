import VitalSE.Solver.Builder

/-!
# The builder for STP

Products and quotients by constants become shifts, sums and, for 32 bits, a
multiplication by a reciprocal; `optimizeDivides` switches the reciprocals on. A
test of a shift amount looks only at the bits that an amount below the width can
have. A constant array is written out position by position.
-/

namespace VitalSE.STPBuilder

open Smt

def bvSExtConst (width : Nat) (value : BitVec 64) : Term :=
  if width ≤ 64 then bvConst64 width value
  else .signExtend (bvConst64 64 value) width

def bvMinusOne (width : Nat) : Term := bvSExtConst width (-1)

def eqExpr (a b : Term) : Except String Term := do
  assert (a.bvLength = b.bvLength) "a and b should be same type"
  return .eq a b

/-- `APInt(32, width).getActiveBits()`. -/
def activeBits (width : Nat) : Nat := if width = 0 then 0 else Nat.log2 width + 1

/-- The shift amount, looking only at the bits appropriate for the given
width. -/
def extractPartialShiftValue (shift : Term) (width : Nat) : Term × Nat :=
  let shiftBits := activeBits width
  (.extract (shiftBits - 1) 0 shift, shiftBits)

def shiftEquals (width : Nat) (shift : Term) (i : Nat) : Except String Term :=
  let (shiftExt, shiftBits) := extractPartialShiftValue shift width
  eqExpr shiftExt (bvConst32 shiftBits i)

/-- `bvVarRightShift` with this builder's test of the amount. -/
def bvVarRightShift : Term → Term → Except String Term :=
  VitalSE.bvVarRightShift shiftEquals

/-- The loop of `constructMulByConstant` over the bits below `j`, the highest
first; `res` is the sum of the bits above. -/
def mulLoop (expr : Term) (add sub : BitVec 64) :
    Nat → Option Term → Except String (Option Term)
  | 0, res => .ok res
  | j + 1, res => do
    let bit := 1#64 <<< j
    if add &&& bit ≠ 0 ∨ sub &&& bit ≠ 0 then
      assert (¬(add &&& bit ≠ 0 ∧ sub &&& bit ≠ 0)) "invalid mult constants"
      let op := bvLeftShift expr j
      if add &&& bit ≠ 0 then
        match res with
        | some res => mulLoop expr add sub j (some (.bv .add res op))
        | none => mulLoop expr add sub j (some op)
      else
        match res with
        | some res => mulLoop expr add sub j (some (.bv .sub res op))
        | none => mulLoop expr add sub j (some (.bvNeg op))
    else mulLoop expr add sub j res

def constructMulByConstant (expr : Term) (width : Nat) (x : BitVec 64) :
    Except String Term := do
  -- expr*x == expr*(add-sub) == expr*add - expr*sub
  let (add, sub) ← computeMultConstants64 x
  -- legal, these would overflow completely
  let add ← Bits64.truncateToNBits add width
  let sub ← Bits64.truncateToNBits sub width
  match ← mulLoop expr add sub 64 none with
  | some res => return res
  | none => return bvZero width

/-- The unsigned quotient of 32 bits by the constant `d`. -/
def constructUDivByConstant (n : Term) (width : Nat) (d : BitVec 32) :
    Except String Term := do
  assert (width = 32) "can only compute udiv constants for 32-bit division"
  let c ← computeUDivConstants32 d
  -- t1 = MULUH(mprime, n) = ( (uint64_t)mprime * (uint64_t)n ) >> 32
  let n64 := Term.concat (bvZero 32) n
  let t1' ← constructMulByConstant n64 64 (c.mprime.setWidth 64)
  let t1 := bvExtract t1' 63 32
  -- n/d = (((n - t1) >> sh1) + t1) >> sh2
  let shiftSh1 ← bvVarRightShift (.bv .sub n t1) (bvConst32 32 c.sh1)
  bvVarRightShift (.bv .add shiftSh1 t1) (bvConst32 32 c.sh2)

/-- The signed quotient of 32 bits by the constant `d`. -/
def constructSDivByConstant (n : Term) (width : Nat) (d : BitVec 32) :
    Except String Term := do
  assert (width = 32) "can only compute udiv constants for 32-bit division"
  let c ← computeSDivConstants32 d
  let dsign := bvConst32 32 c.dsign.toNat
  -- q0 = n + MULSH(mprime, n) = n + (( (int64_t)mprime * (int64_t)n ) >> 32)
  let n64 := Term.signExtend n 64
  let mult64 ← constructMulByConstant n64 64 (c.mprime.signExtend 64)
  let nPlusMulsh := Term.bv .add n (bvExtract mult64 63 32)
  -- variable arithmetic right shift: sign extend, shift, extract
  let shiftNpm ← bvVarRightShift (.signExtend nPlusMulsh 64)
    (bvConst32 32 c.shpost)
  let shiftShpost := bvExtract shiftNpm 31 0
  -- XSIGN(n) is -1 if n is negative, zero otherwise
  let xsign := Term.ite (bvBoolExtract n 31) (bvMinusOne 32) (bvZero 32)
  -- q0 = (n_plus_mulsh >> shpost) - XSIGN(n), n/d = (q0 ^ dsign) - dsign
  let q0 := Term.bv .sub shiftShpost xsign
  return .bv .sub (.bv .xor q0 dsign) dsign

/-- The terms for operations with a constant operand: a product of at most 64
bits, a division by a power of two, and divisions of 32 bits. -/
def byConstant (optimizeDivides : Bool) (kind : BinaryKind) (CE : APInt)
    (operand : Term) (width : Nat) : Option (Except String Term) :=
  let divisor := zextValue64 CE
  match kind with
  | .mul =>
    if CE.width ≤ 64 then some (constructMulByConstant operand width divisor)
    else none
  | .udiv =>
    if CE.width ≤ 64 then
      if Bits64.isPowerOfTwo divisor then
        some (do return bvRightShift operand (← Bits64.indexOfSingleBit divisor))
      else if optimizeDivides ∧ width = 32 then
        some (constructUDivByConstant operand width (divisor.setWidth 32))
      else none
    else none
  | .sdiv =>
    if optimizeDivides ∧ CE ≠ APInt.ofNat CE.width 1 ∧
        CE ≠ ⟨CE.width, BitVec.allOnes CE.width⟩ ∧ width = 32 then
      some (constructSDivByConstant operand width (BitVec.ofNat 32 CE.toNat))
    else none
  | .urem =>
    if CE.width ≤ 64 then
      if Bits64.isPowerOfTwo divisor then some (do
        let bits ← Bits64.indexOfSingleBit divisor
        -- special case for modding by 1 or else we bvExtract -1:0
        if bits = 0 then return bvZero width
        else
          return .concat (bvZero (width - bits)) (bvExtract operand (bits - 1) 0))
      else if optimizeDivides ∧ width = 32 then some (do
        let quotient ← constructUDivByConstant operand width
          (divisor.setWidth 32)
        let product ← constructMulByConstant quotient width divisor
        return .bv .sub operand product)
      else none
    else none
  | _ => none

/-- Flush the concrete values into the array. -/
def writeConstants : List (BitVec 8) → Nat → Term → Term
  | [], _, array => array
  | v :: vs, i, array => writeConstants vs (i + 1)
      (.write array (constructConstant (APInt.ofNat Array.domain i))
        (constructConstant ⟨8, v⟩))

end STPBuilder

def STPBuilder (useConstructHash optimizeDivides : Bool) : Builder where
  useConstructHash := useConstructHash
  bvSExtConst := STPBuilder.bvSExtConst
  shiftEquals := STPBuilder.shiftEquals
  bvSignExtend src width := .ok (.signExtend src width)
  zeroExtend src srcWidth width := .ok (.concat (bvZero (width - srcWidth)) src)
  iffExpr a b := .ok (.iff a b)
  result res _ := .ok res
  byConstant := STPBuilder.byConstant optimizeDivides
  constantArray root array :=
    pure (STPBuilder.writeConstants root.constantValues 0 array)

end VitalSE
