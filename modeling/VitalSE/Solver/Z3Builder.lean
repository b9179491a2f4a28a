import VitalSE.Solver.Builder

/-!
# The builder for Z3

It leaves products and quotients to the solver, except those by a power of two,
and asserts the widths of what it builds. A test of a shift amount compares the
whole amount. The values of a constant array are assertions beside the term,
which the solver adds to the query.
-/

namespace VitalSE.Z3Builder

open Smt

def bvSExtConst (width : Nat) (value : BitVec 64) : Term :=
  if width ≤ 64 then bvConst64 width value
  else if (value >>> 63) ≠ 0 then
    .concat (.bvConst (width - 64) (2 ^ (width - 64) - 1)) (bvConst64 64 value)
  else .concat (.bvConst (width - 64) 0) (bvConst64 64 value)

def shiftEquals (width : Nat) (shift : Term) (i : Nat) : Except String Term :=
  .ok (.eq shift (bvConst32 width i))

def bvSignExtend (src : Term) (width : Nat) : Except String Term := do
  assert (src.bvLength ≤ width) "attempted to extend longer data"
  return .signExtend src width

def zeroExtend (src : Term) (srcWidth width : Nat) : Except String Term := do
  assert (srcWidth < width) "Invalid width_out"
  return .concat (bvZero (width - srcWidth)) src

def iffExpr (lhs rhs : Term) : Except String Term := do
  assert (lhs.sort = rhs.sort) "lhs and rhs sorts must match"
  assert (lhs.sort = .bool) "args must have BOOL sort"
  return .iff lhs rhs

def result (result : Term) (width : Nat) : Except String Term := do
  assert (result.bvLength = width) "width mismatch"
  return result

/-- The terms for divisions by a power of two. -/
def byConstant (kind : BinaryKind) (CE : APInt) (operand : Term) (width : Nat) :
    Option (Except String Term) :=
  let divisor := zextValue64 CE
  match kind with
  | .udiv =>
    if CE.width ≤ 64 ∧ Bits64.isPowerOfTwo divisor then
      some (do return bvRightShift operand (← Bits64.indexOfSingleBit divisor))
    else none
  | .urem =>
    if CE.width ≤ 64 ∧ Bits64.isPowerOfTwo divisor then some (do
      let bits ← Bits64.indexOfSingleBit divisor
      -- special case for modding by 1 or else we bvExtract -1:0
      if bits = 0 then return bvZero width
      else
        assert (bits < width) "invalid width_out"
        return .concat (bvZero (width - bits)) (bvExtract operand (bits - 1) 0))
    else none
  | _ => none

/-- `(= (select i root) root->value[i])` for every position. -/
def arrayAssertions (array : Term) : List (BitVec 8) → Nat → List Term
  | [], _ => []
  | v :: vs, i =>
    .eq (.read array (bvConst32 Array.domain i))
      (constructConstant ⟨8, v⟩) :: arrayAssertions array vs (i + 1)

def constantArray (root : Array) (array : Term) : BuilderM Term := do
  if (← get).constantArrayAssertions.lookup root |>.isNone then
    modify fun st => { st with
      constantArrayAssertions :=
        (root, arrayAssertions array root.constantValues 0) ::
          st.constantArrayAssertions }
  return array

end Z3Builder

def Z3Builder (useConstructHash : Bool) : Builder where
  useConstructHash := useConstructHash
  bvSExtConst := Z3Builder.bvSExtConst
  shiftEquals := Z3Builder.shiftEquals
  bvSignExtend := Z3Builder.bvSignExtend
  zeroExtend := Z3Builder.zeroExtend
  iffExpr := Z3Builder.iffExpr
  result := Z3Builder.result
  byConstant := Z3Builder.byConstant
  constantArray := Z3Builder.constantArray

end VitalSE
