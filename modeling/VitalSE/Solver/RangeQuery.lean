import VitalSE.Solver.Solver
import VitalSE.Solver.ValueRange

/-!
# The range of an expression

`Solver::getRange` finds the least and the greatest value that an expression of
at most 64 bits has under the constraints, by three binary searches: for the
number of bits that are used, for the least value and for the greatest one. All
three are one loop over 64-bit words with a test of its own.
-/

namespace VitalSE.Solver

variable {S : Type} (impl : SolverImpl S) (constArrayOpt : Bool)

def mustBeFalse (query : Query) : SolverM S (Option Bool) :=
  mustBeTrue impl (query.negateExpr constArrayOpt)

def mayBeTrue (query : Query) : SolverM S (Option Bool) := do
  match ← mustBeFalse impl constArrayOpt query with
  | none => return none
  | some res => return some (!res)

def midpoint (lo hi : BitVec 64) : BitVec 64 := lo + (hi - lo) / 2

theorem toNat_midpoint {lo hi : BitVec 64} (h : lo < hi) :
    (midpoint lo hi).toNat = lo.toNat + (hi.toNat - lo.toNat) / 2 := by
  have hlt : lo.toNat < hi.toNat := h
  have hsub : (hi - lo).toNat = hi.toNat - lo.toNat := by bv_omega
  have hdiv : ((hi - lo) / 2).toNat = (hi.toNat - lo.toNat) / 2 := by
    rw [BitVec.toNat_udiv, hsub]
    rfl
  rw [midpoint, BitVec.toNat_add, hdiv]
  omega

/-- The loop of `getRange`: the upper bound moves down to where the test is
true, the lower bound up beyond where it is false. -/
def search (test : BitVec 64 → SolverM S (Option Bool)) (lo hi : BitVec 64) :
    SolverM S (BitVec 64) :=
  if _h : lo < hi then do
    match ← test (midpoint lo hi) with
    | none => throw (.assertion "FIXME: Unhandled solver failure")
    | some true => search test lo (midpoint lo hi)
    | some false => search test (midpoint lo hi + 1) hi
  else return lo
termination_by hi.toNat - lo.toNat
decreasing_by
  · have hlt : lo.toNat < hi.toNat := ‹lo < hi›
    rw [toNat_midpoint ‹_›]
    omega
  · have hlt : lo.toNat < hi.toNat := ‹lo < hi›
    rw [BitVec.toNat_add, toNat_midpoint ‹_›]
    simp
    omega

/-- Whether the expression is at most a constant. -/
def atMost (query : Query) (value : BitVec 64) : Query :=
  query.withExpr (UleExpr.create constArrayOpt query.expr
    (Expr.const value.toNat query.expr.getWidth))

/-- Whether only the lowest bits of the expression are used. -/
def usesBits (query : Query) (bits : BitVec 64) : Query :=
  query.withExpr (EqExpr.create constArrayOpt
    (LShrExpr.create constArrayOpt query.expr
      (Expr.const bits.toNat query.expr.getWidth))
    (Expr.const 0 query.expr.getWidth))

/-- The search for the least value, after the common case. -/
def leastValue (query : Query) (maxValue : BitVec 64) : SolverM S (BitVec 64) := do
  let isZero := EqExpr.create constArrayOpt query.expr
    (Expr.const 0 query.expr.getWidth)
  match ← mayBeTrue impl constArrayOpt (query.withExpr isZero) with
  | none => throw (.assertion "FIXME: Unhandled solver failure")
  | some true => return 0
  | some false =>
    search (fun mid => mayBeTrue impl constArrayOpt (atMost constArrayOpt query mid))
      0 maxValue

/-- The searches. -/
def searchRange (query : Query) : SolverM S (BitVec 64 × BitVec 64) := do
  let bits ← search (fun mid => mustBeTrue impl (usesBits constArrayOpt query mid)) 0
    (BitVec.ofNat 64 query.expr.getWidth)
  let maxValue ← liftM (Bits64.maxValueOfNBits bits.toNat)
  let min ← leastValue impl constArrayOpt query maxValue
  let max ← search (fun mid => mustBeTrue impl (atMost constArrayOpt query mid))
    min maxValue
  return (min, max)

/-- The bounds that `getRange` makes constants of. -/
def rangeBounds (query : Query) : SolverM S (BitVec 64 × BitVec 64) :=
  if query.expr.getWidth = 1 then do
    match ← evaluate impl query with
    | none => throw (.assertion "computeValidity failed")
    | some .true => return (1, 1)
    | some .false => return (0, 0)
    | some .unknown => return (0, 1)
  else match query.expr with
    | .constant c =>
      if 64 < c.width then throw (.assertion "Value may be out of range!")
      else return (BitVec.ofNat 64 c.toNat, BitVec.ofNat 64 c.toNat)
    | _ => searchRange impl constArrayOpt query

def getRange (query : Query) : SolverM S (Expr × Expr) := do
  let (min, max) ← rangeBounds impl constArrayOpt query
  return (Expr.const min.toNat query.expr.getWidth,
    Expr.const max.toNat query.expr.getWidth)

end VitalSE.Solver
