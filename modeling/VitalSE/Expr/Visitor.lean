import VitalSE.Expr.Create

/-!
# Expression visitors

A visitor walks an expression, may stop at a node or replace it, and rebuilds
the nodes whose operands changed. `ExprVisitor` has the three hooks the walk
calls: one before the operands of any node, one chosen by the class of the
node, which may visit operands itself, and one after the operands. With
`recursive`, a rebuilt expression is walked again.

The walk is given a bound on its depth, and answers `none` when it is
exhausted. The table of results that the source keeps during a walk is left
out: it only saves visiting one expression twice.
-/

namespace VitalSE

inductive Action where
  | skipChildren
  | doChildren
  | changeTo (argument : Expr)

structure ExprVisitor where
  visitExpr : Expr → Action
  /-- `visitRead`, `visitUDiv` and so on, given the visitor itself. -/
  visitNode : (Expr → Option Expr) → Expr → Option Action
  visitExprPost : Expr → Action
  recursive : Bool

namespace Expr

/-- The operands. Those of a read do not include its updates. -/
def kids : Expr → List Expr
  | constant _ => []
  | notOptimized src => [src]
  | read _ _ index => [index]
  | select c t f => [c, t, f]
  | concat l r => [l, r]
  | extract e _ _ => [e]
  | zext e _ => [e]
  | sext e _ => [e]
  | not e => [e]
  | binary _ l r => [l, r]
  | cmp _ l r => [l, r]

/-- The plain node over visited operands. -/
def mapKids (f : Expr → Option Expr) : Expr → Option Expr
  | constant value => some (constant value)
  | notOptimized src => do return notOptimized (← f src)
  | read root head index => do return read root head (← f index)
  | select c t e => do return select (← f c) (← f t) (← f e)
  | concat l r => do return concat (← f l) (← f r)
  | extract e off w => do return extract (← f e) off w
  | zext e w => do return zext (← f e) w
  | sext e w => do return sext (← f e) w
  | not e => do return not (← f e)
  | binary k l r => do return binary k (← f l) (← f r)
  | cmp k l r => do return cmp k (← f l) (← f r)

def isConstant : Expr → Bool
  | constant _ => true
  | _ => false

theorem isConstant_iff {e : Expr} : e.isConstant ↔ ∃ c, e = constant c := by
  cases e <;> simp [isConstant]

end Expr

namespace ExprVisitor

variable (constArrayOpt : Bool) (v : ExprVisitor)

/-- The end of `visitActual`: the hook that runs after the operands. -/
def post (e : Expr) : Expr :=
  if e.isConstant then e
  else match v.visitExprPost e with
    | .changeTo d => d
    | _ => e

def visit : Nat → Expr → Option Expr
  | 0, _ => none
  | n + 1, e =>
    if e.isConstant then some e
    else match v.visitExpr e with
      | .skipChildren => some e
      | .changeTo d => some d
      | .doChildren => do
        match ← v.visitNode (visit n) e with
        | .skipChildren => return e
        | .changeTo d => return d
        | .doChildren =>
          let e' ← e.mapKids (visit n)
          if e' = e then return v.post e
          else
            let e'' := e'.rebuild constArrayOpt
            if v.recursive then return v.post (← visit n e'')
            else return v.post e''

end ExprVisitor

end VitalSE
