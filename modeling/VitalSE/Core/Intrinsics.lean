import VitalSE.Solver.FastCexSolver

/-!
# Integer intrinsics

What `executeCall` binds to the result of a funnel shift, an absolute value, a
minimum or a maximum. The operands are integers, not vectors. An assertion on
widths inside the smart constructors is the typing of their operands and is not
repeated here; those on constants that go through 64-bit integers are.
-/

namespace VitalSE

/-- `APInt::getZExtValue`. -/
def getZExtValue (c : APInt) : Except Abort Nat := do
  Abort.assert (c.toNat < 2 ^ 64) "Too many bits for uint64_t"
  return c.toNat

/-- `ConstantExpr::create`, for a value below `2 ^ 64`. -/
def ConstantExpr.create (v w : Nat) : Except Abort Expr := do
  if w ≤ 64 then
    Abort.assert (v = v % 2 ^ w) "invalid constant"
  return .const v w

namespace Executor

inductive FunnelShift where
  | fshl | fshr

inductive MinMax where
  | smax | smin | umax | umin

def funnelShift (constArrayOpt : Bool) (f : FunnelShift) (op1 op2 op3 : Expr) :
    Except Abort Expr := do
  let w := op1.getWidth
  Abort.assert (w = op2.getWidth) "type mismatch"
  Abort.assert (w = op3.getWidth) "type mismatch"
  let c := ConcatExpr.create op1 op2
  -- op3 = zeroExtend(op3 % w)
  let op3 := URemExpr.create op3 (← ConstantExpr.create w w)
  let op3 := ZExtExpr.create op3 (w + w)
  match f with
  -- shift left and take top half
  | .fshl => return ExtractExpr.create (ShlExpr.create constArrayOpt c op3) w w
  -- shift right and take bottom half
  | .fshr => return ExtractExpr.create (LShrExpr.create constArrayOpt c op3) 0 w

def minMax (constArrayOpt : Bool) (f : MinMax) (op1 op2 : Expr) : Expr :=
  let cond := match f with
    | .smax => SgtExpr.create constArrayOpt op1 op2
    | .smin => SltExpr.create constArrayOpt op1 op2
    | .umax => UgtExpr.create constArrayOpt op1 op2
    | .umin => UltExpr.create constArrayOpt op1 op2
  SelectExpr.create constArrayOpt cond op1 op2

/-- The expression for the absolute value, from the constants 0, -1 and the
least integer. -/
def absSelect (constArrayOpt : Bool) (op zero mone smin : Expr) : Expr :=
  -- conditions to flip the sign: INT_MIN < op < 0
  let negative := SltExpr.create constArrayOpt op zero
  let notsmin := NeExpr.create constArrayOpt op smin
  let cond := AndExpr.create negative notsmin
  -- flip and select the result
  let flip := MulExpr.create op mone
  SelectExpr.create constArrayOpt cond flip op

/-- The expression that is bound, or the message of the execution error that
terminates the state. -/
def abs (constArrayOpt : Bool) (op poison : Expr) : Except Abort (String ⊕ Expr) := do
  Abort.assert (poison.getWidth = 1) "Second argument is not an i1"
  let bw := op.getWidth
  let moneVal ← getZExtValue ⟨bw, BitVec.allOnes bw⟩
  let sminVal ← getZExtValue ⟨bw, BitVec.intMin bw⟩
  let zero ← ConstantExpr.create 0 bw
  let mone ← ConstantExpr.create moneVal bw
  let smin ← ConstantExpr.create sminVal bw
  if ← poison.isTrue then
    if ← (EqExpr.create constArrayOpt op smin).isTrue then
      return .inl "llvm.abs called with poison and INT_MIN"
  return .inr (absSelect constArrayOpt op zero mone smin)

end Executor

end VitalSE
