import VitalSE.Expr.Visitor
import VitalSE.Expr.Weight
import Mathlib.Algebra.BigOperators.Group.List.Basic

/-!
# The constraint manager

A path condition is a list of constraints. Adding one simplifies it with what
the list already says, splits conjunctions, and, when it is an equality with a
constant, rewrites every constraint of the list with it; a constraint that
changes is added again, which may rewrite the ones collected so far.

`Abort.assertion` is a failed assertion of the source, `Abort.fatal` an error
that ends the run, and `Abort.undefined` a step whose behaviour is undefined.
The functions that call each other take a bound on the depth of their calls,
and `Abort.outOfFuel` says that it was exhausted.
-/

namespace VitalSE

inductive Abort where
  | assertion (message : String)
  | fatal (message : String)
  | undefined (what : String)
  | outOfFuel
deriving DecidableEq

/-- An assertion of the source. -/
def Abort.assert (c : Prop) [Decidable c] (message : String) : Except Abort Unit :=
  if c then .ok () else .error (.assertion message)

theorem Abort.assert_ok {c : Prop} [Decidable c] {message : String} (h : c) :
    Abort.assert c message = .ok () := if_pos h

theorem Abort.assert_error {c : Prop} [Decidable c] {message : String} (h : ¬ c) :
    Abort.assert c message = .error (.assertion message) := if_neg h

/-- `ExprReplaceVisitor`. -/
def exprReplaceVisitor (src dst : Expr) : ExprVisitor where
  visitExpr e := if e = src then .changeTo dst else .doChildren
  visitNode _ _ := some .doChildren
  visitExprPost e := if e = src then .changeTo dst else .doChildren
  recursive := false

/-- `ExprReplaceVisitor2`, over a map in the order of its insertions: the first
entry of a key is the one that counts. -/
def exprReplaceVisitor2 (replacements : List (Expr × Expr)) : ExprVisitor where
  visitExpr _ := .doChildren
  visitNode _ _ := some .doChildren
  visitExprPost e := match replacements.lookup e with
    | some d => .changeTo d
    | none => .doChildren
  recursive := true

namespace ConstraintManager

variable (constArrayOpt rewriteEqualities : Bool)

/-- What a constraint lets an expression be replaced by. -/
def equality : Expr → Expr × Expr
  | .cmp .eq (.constant c) right => (right, .constant c)
  | constraint => (constraint, Expr.const 1 1)

def simplifyExpr (fuel : Nat) (constraints : List Expr) (e : Expr) :
    Except Abort Expr :=
  if e.isConstant then .ok e
  else match (exprReplaceVisitor2 (constraints.map equality)).visit
      constArrayOpt fuel e with
    | some e' => .ok e'
    | none => .error .outOfFuel

/-- The loop of `rewriteConstraints` over the old constraints, with the
constraints collected so far and whether one has changed. -/
def rewriteLoop (visit : Expr → Option Expr)
    (addConstraintInternal : List Expr → Expr → Except Abort (List Expr)) :
    (old constraints : List Expr) → (changed : Bool) →
      Except Abort (List Expr × Bool)
  | [], constraints, changed => .ok (constraints, changed)
  | ce :: old, constraints, changed =>
    match visit ce with
    | none => .error .outOfFuel
    | some e =>
      if e ≠ ce then do
        -- enable further reductions
        let constraints' ← addConstraintInternal constraints e
        rewriteLoop visit addConstraintInternal old constraints' true
      else
        rewriteLoop visit addConstraintInternal old (constraints ++ [ce])
          changed

def addConstraintInternal :
    Nat → List Expr → Expr → Except Abort (List Expr)
  | 0, _, _ => .error .outOfFuel
  | n + 1, constraints, e =>
    match e with
    | .constant c =>
      if ConstantExpr.isTrue c then .ok constraints
      else .error (.assertion "attempt to add invalid (false) constraint")
    | .binary .and left right => do
      let constraints' ← addConstraintInternal n constraints left
      addConstraintInternal n constraints' right
    | .cmp .eq (.constant c) right =>
      if rewriteEqualities then do
        let (constraints', _) ← rewriteLoop
          ((exprReplaceVisitor right (.constant c)).visit constArrayOpt n)
          (addConstraintInternal n) constraints [] false
        return constraints' ++ [e]
      else .ok (constraints ++ [e])
    | _ => .ok (constraints ++ [e])

def addConstraint (fuel : Nat) (constraints : List Expr) (e : Expr) :
    Except Abort (List Expr) := do
  let simplified ← simplifyExpr constArrayOpt fuel constraints e
  addConstraintInternal constArrayOpt rewriteEqualities fuel constraints
    simplified

end ConstraintManager

/-- The weight of a list of constraints. -/
def constraintsWeight (cs : List Expr) : Nat := (cs.map Expr.weight).sum

namespace ConstraintManager

/-! The calls of the executor, with a bound on their depth that is always
enough. -/

def simplifyExprBounded (constArrayOpt : Bool) (constraints : List Expr)
    (e : Expr) : Except Abort Expr :=
  simplifyExpr constArrayOpt e.weight constraints e

def addConstraintBounded (constArrayOpt rewriteEqualities : Bool)
    (constraints : List Expr) (e : Expr) : Except Abort (List Expr) :=
  addConstraint constArrayOpt rewriteEqualities
    (constraintsWeight (constraints ++ [e])) constraints e

end ConstraintManager

end VitalSE
