import VitalSE.Expr.Visitor
import VitalSE.Expr.Weight

/-!
# Evaluation by a visitor

`ExprEvaluator` replaces the bytes it knows by their values and folds what
becomes constant. What the initial value of a byte is, the evaluators that
extend it say by `getInitialValue`, which answers with a read of that byte when
it is not known. A write at an unknown position stops the search for the value
of a read, and a divisor that turns out to be zero is put back as it was.
-/

namespace VitalSE

namespace ExprEvaluator

variable (constArrayOpt : Bool) (getInitialValue : Array → Nat → Expr)

/-- The value at `index`, from the update on that is given. -/
def evalRead (visit : Expr → Option Expr) (root : Array) (index : Nat) :
    UpdateNode → Option Action
  | .null =>
    if root.isConstantArray && index < root.size then
      some (.changeTo (.constant ⟨8, root.constantValues.getD index 0⟩))
    else some (.changeTo (getInitialValue root index))
  | .node next i value => do
    match ← visit i with
    | .constant ce =>
      if ce.toNat = index then return .changeTo (← visit value)
      else evalRead visit root index next
    -- Whether this is a write to the index is unknown.
    | _ => return .changeTo (ReadExpr.create constArrayOpt root
        (.node next i value) (Expr.const index Array.domain))

def visitExpr (e : Expr) : Action :=
  match e with
  | .constant _ | .read .. => .doChildren
  | _ =>
    if e.kids.all Expr.isConstant then .changeTo (e.rebuild constArrayOpt)
    else .doChildren

def visitRead (visit : Expr → Option Expr) (root : Array) (head : UpdateNode)
    (index : Expr) : Option Action := do
  match ← visit index with
  -- The position is passed on as a 32-bit word.
  | .constant ce =>
    evalRead constArrayOpt getInitialValue visit root (ce.toNat % 2 ^ 32) head
  | _ => return .doChildren

/-- The evaluated divisor, or the original one if that is zero. -/
def protectDivisor (right : Expr) : Expr → Expr
  | .constant ce => if ce.isZero then right else .constant ce
  | right' => right'

def protectedDivOperation (visit : Expr → Option Expr) (kind : BinaryKind)
    (left right : Expr) : Option Action := do
  let left' ← visit left
  let right' := protectDivisor right (← visit right)
  if left' ≠ left ∨ right' ≠ right then
    return .changeTo ((Expr.binary kind left' right').rebuild constArrayOpt)
  else return .skipChildren

def visitNode (visit : Expr → Option Expr) : Expr → Option Action
  | .read root head index =>
    visitRead constArrayOpt getInitialValue visit root head index
  | .binary .udiv left right =>
    protectedDivOperation constArrayOpt visit .udiv left right
  | .binary .sdiv left right =>
    protectedDivOperation constArrayOpt visit .sdiv left right
  | .binary .urem left right =>
    protectedDivOperation constArrayOpt visit .urem left right
  | .binary .srem left right =>
    protectedDivOperation constArrayOpt visit .srem left right
  | _ => some .doChildren

def visitExprPost : Expr → Action
  | .notOptimized src => .changeTo src
  | _ => .skipChildren

def visitor : ExprVisitor where
  visitExpr := visitExpr constArrayOpt
  visitNode := visitNode constArrayOpt getInitialValue
  visitExprPost := visitExprPost
  recursive := false

/-- The walk, as deep as the expression can need. -/
def evaluate (e : Expr) : Option Expr :=
  (visitor constArrayOpt getInitialValue).visit constArrayOpt e.weight e

end ExprEvaluator

end VitalSE
