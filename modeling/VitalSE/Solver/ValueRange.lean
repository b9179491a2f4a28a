import VitalSE.Expr.Constraints
import VitalSE.Lib.BitRange

/-!
# Ranges of values

The intervals of the fast counterexample solver and the evaluator that
computes an interval for an expression. A range is a pair of 64-bit words, and
it is empty when they are out of order. The ranges of an expression are found
without looking at what is known about the arrays: a read of a symbolic array
is any byte.

A failed assertion and an undefined shift end the run. A concatenation is
evaluated as the source does it, by appending the ranges of its operands eight
bits apart whatever their widths are.
-/

namespace VitalSE

/-- `bits64::maxValueOfNBits`. -/
def Bits64.maxValueOfNBits (n : Nat) : Except Abort (BitVec 64) :=
  if 64 < n then throw (.assertion "N <= 64")
  else if n = 0 then return 0
  else return BitVec.allOnes 64 >>> (64 - n)

/-- `APInt::getLimitedValue`: the value, or the greatest word if it is larger. -/
def ConstantExpr.getLimitedValue (ce : APInt) : BitVec 64 :=
  BitVec.ofNat 64 (min ce.toNat (2 ^ 64 - 1))

def minOR (a b c d : BitVec 64) : BitVec 64 := BitVec.minOr a b c d 64

def maxOR (a b c d : BitVec 64) : BitVec 64 := BitVec.maxOr a b c d 64

def minAND (a b c d : BitVec 64) : BitVec 64 := BitVec.minAnd a b c d 64

def maxAND (a b c d : BitVec 64) : BitVec 64 := BitVec.maxAnd a b c d 64

structure ValueRange where
  m_min : BitVec 64
  m_max : BitVec 64
deriving DecidableEq

namespace ValueRange

/-- The range of the default constructor. -/
def empty : ValueRange := ⟨1, 0⟩

def fixed (value : BitVec 64) : ValueRange := ⟨value, value⟩

def ofConstant (ce : APInt) : ValueRange := fixed (ConstantExpr.getLimitedValue ce)

/-- All values of the given number of bits. -/
def full (bits : Nat) : Except Abort ValueRange := do
  return ⟨0, ← Bits64.maxValueOfNBits bits⟩

variable (a b : ValueRange)

def isEmpty : Bool := a.m_max < a.m_min

def isFixed : Bool := a.m_min == a.m_max

def setIntersection : ValueRange :=
  ⟨if a.m_min < b.m_min then b.m_min else a.m_min,
   if b.m_max < a.m_max then b.m_max else a.m_max⟩

def setUnion : ValueRange :=
  ⟨if b.m_min < a.m_min then b.m_min else a.m_min,
   if a.m_max < b.m_max then b.m_max else a.m_max⟩

/-- What is left of `a`, or the lower part of it when that is two ranges. -/
def setDifference : ValueRange :=
  if b.isEmpty || a.m_max < b.m_min || b.m_max < a.m_min then a
  else if b.m_min ≤ a.m_min && a.m_max ≤ b.m_max then empty
  else if b.m_min ≤ a.m_min then ⟨b.m_max + 1, a.m_max⟩
  else ⟨a.m_min, b.m_min - 1⟩

def intersects : Bool := !(a.setIntersection b).isEmpty

def isFullRange (bits : Nat) : Except Abort Bool := do
  let max ← Bits64.maxValueOfNBits bits
  return a.m_min == 0 && a.m_max == max

def binaryAnd : Except Abort ValueRange :=
  if a.isEmpty || b.isEmpty then throw (.assertion "XXX")
  else if a.isFixed && b.isFixed then return fixed (a.m_min &&& b.m_min)
  else return ⟨minAND a.m_min a.m_max b.m_min b.m_max,
    maxAND a.m_min a.m_max b.m_min b.m_max⟩

def binaryOr : Except Abort ValueRange :=
  if a.isEmpty || b.isEmpty then throw (.assertion "XXX")
  else if a.isFixed && b.isFixed then return fixed (a.m_min ||| b.m_min)
  else return ⟨minOR a.m_min a.m_max b.m_min b.m_max,
    maxOR a.m_min a.m_max b.m_min b.m_max⟩

/-- The loop that isolates the highest bit does not end on zero; otherwise it
takes at most one round for each bit. -/
def binaryXor : Except Abort ValueRange :=
  if a.isFixed && b.isFixed then return fixed (a.m_min ^^^ b.m_min)
  else match (a.m_max ||| b.m_max).isolateTop 64 with
    | none => throw .outOfFuel
    | some t => return ⟨0, (t <<< 1) - 1⟩

def binaryShiftLeft (bits : Nat) : Except Abort ValueRange :=
  if 64 ≤ bits then throw (.undefined "shift by the width of the type")
  else return ⟨a.m_min <<< bits, a.m_max <<< bits⟩

def binaryShiftRight (bits : Nat) : Except Abort ValueRange :=
  if 64 ≤ bits then throw (.undefined "shift by the width of the type")
  else return ⟨a.m_min >>> bits, a.m_max >>> bits⟩

def concat (bits : Nat) : Except Abort ValueRange := do
  (← a.binaryShiftLeft bits).binaryOr b

def extract (lowBit maxBit : Nat) : Except Abort ValueRange := do
  let shifted ← a.binaryShiftRight lowBit
  shifted.binaryAnd (fixed (← Bits64.maxValueOfNBits (maxBit - lowBit)))

def mustEqual : Bool := a.isFixed && b.isFixed && a.m_min == b.m_min

def mayEqual : Bool := a.intersects b

/-- `mustEqual` of a value. -/
def mustBe (value : BitVec 64) : Bool := a.m_min == a.m_max && a.m_min == value

def min : Except Abort (BitVec 64) :=
  if a.isEmpty then throw (.assertion "cannot get minimum of empty range")
  else return a.m_min

def max : Except Abort (BitVec 64) :=
  if a.isEmpty then throw (.assertion "cannot get maximum of empty range")
  else return a.m_max

/-- The checks of `minSigned` and `maxSigned`. With 64 bits the second one
shifts a word by its whole width. -/
def checkSigned (bits : Nat) : Except Abort Unit :=
  if bits < 2 || 64 < bits then throw (.assertion "bits >= 2 && bits <= 64")
  else if bits = 64 then throw (.undefined "shift by the width of the type")
  else if a.m_min >>> bits ≠ 0 || a.m_max >>> bits ≠ 0 then
    throw (.assertion "range is outside given number of bits")
  else return ()

def minSigned (bits : Nat) : Except Abort Int := do
  a.checkSigned bits
  if BitVec.twoPow 64 (bits - 1) ≤ a.m_max then
    return (BitVec.intMin bits).toInt
  else return a.m_min.toInt

def maxSigned (bits : Nat) : Except Abort Int := do
  a.checkSigned bits
  let smallest := BitVec.twoPow 64 (bits - 1)
  if a.m_min < smallest && smallest ≤ a.m_max then
    return (smallest - 1).toInt
  else return (a.m_max.setWidth bits).toInt

end ValueRange

namespace ExprRangeEvaluator

open ValueRange

/-- `CexRangeEvaluator::getInitialReadRange`. -/
def getInitialReadRange (array : Array) (index : ValueRange) : ValueRange :=
  if array.isConstantArray && index.isFixed && index.m_min.toNat < array.size then
    fixed ((array.constantValues.getD index.m_min.toNat 0).setWidth 64)
  else ⟨0, 255⟩

/-- A comparison whose outcome the ranges decide, or any boolean. -/
def decided (isTrue isFalse : Bool) : Except Abort ValueRange :=
  if isTrue then return fixed 1
  else if isFalse then return fixed 0
  else full 1

/-- The comparison of two ranges. -/
def compare (kind : CmpKind) (bits : Nat) (left right : ValueRange) :
    Except Abort ValueRange :=
  match kind with
  | .eq => decided (left.mustEqual right) (!left.mayEqual right)
  | .ult => do
    decided ((← left.max) < (← right.min)) ((← right.max) ≤ (← left.min))
  | .ule => do
    decided ((← left.max) ≤ (← right.min)) ((← right.max) < (← left.min))
  | .slt => do
    decided ((← left.maxSigned bits) < (← right.minSigned bits))
      ((← right.maxSigned bits) ≤ (← left.minSigned bits))
  | .sle => do
    decided ((← left.maxSigned bits) ≤ (← right.minSigned bits))
      ((← right.maxSigned bits) < (← left.minSigned bits))
  | .ne | .ugt | .uge | .sgt | .sge =>
    throw (.assertion "invalid expressions (uncanonicalized)")

mutual

def evaluate : Expr → Except Abort ValueRange
  | .constant value => return ofConstant value
  | .read root head index => do
    evalRead root (← evaluate index) head empty
  | .select cond trueExpr falseExpr => do
    let c ← evaluate cond
    if c.mustBe 1 then evaluate trueExpr
    else if c.mustBe 0 then evaluate falseExpr
    else return (← evaluate trueExpr).setUnion (← evaluate falseExpr)
  | .concat left right => do
    let res ← (fixed 0).concat (← evaluate left) 8
    res.concat (← evaluate right) 8
  | .binary kind left right => do
    match kind with
    | .and => (← evaluate left).binaryAnd (← evaluate right)
    | .or => (← evaluate left).binaryOr (← evaluate right)
    | .xor => (← evaluate left).binaryXor (← evaluate right)
    | .shl | .lshr | .ashr => full left.getWidth
    | .add | .sub | .mul | .udiv | .sdiv | .urem | .srem =>
      let _ ← evaluate left
      let _ ← evaluate right
      full left.getWidth
  | .cmp kind left right => do
    compare kind left.getWidth (← evaluate left) (← evaluate right)
  | .notOptimized src => full src.getWidth
  | .extract _ _ width => full width
  | .zext _ width => full width
  | .sext _ width => full width
  | .not expr => full expr.getWidth

/-- The value read at `index` from the updates `un` on, joined with what the
newer ones may have written. -/
def evalRead (root : Array) (index : ValueRange) :
    UpdateNode → ValueRange → Except Abort ValueRange
  | .null, res => return res.setUnion (getInitialReadRange root index)
  | .node next i value, res => do
    let ui ← evaluate i
    if ui.mustEqual index then return res.setUnion (← evaluate value)
    else if ui.mayEqual index then
      let res' := res.setUnion (← evaluate value)
      if ← res'.isFullRange 8 then return res'
      else evalRead root index next res'
    else evalRead root index next res

end

end ExprRangeEvaluator

end VitalSE
