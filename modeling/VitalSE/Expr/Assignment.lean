import VitalSE.Expr.Evaluator
import VitalSE.Expr.Constraints
import Mathlib.Data.List.AList

/-!
# Assignments

An assignment binds arrays to their bytes. Expressions are evaluated under it by
an evaluator whose initial values are the bytes that are bound. A byte that is
not bound is zero, or, with `allowFreeValues`, stays a read of that byte.
-/

namespace VitalSE

/-- Bytes for some arrays. -/
abbrev Bindings := AList fun _ : Array => List (BitVec 8)

structure Assignment where
  allowFreeValues : Bool
  bindings : Bindings

namespace Assignment

/-- A binding is only made for an array that has none. -/
def bind (b : Bindings) (array : Array) (value : List (BitVec 8)) : Bindings :=
  match b.lookup array with
  | some _ => b
  | none => b.insert array value

def bindAll (b : Bindings) (values : List (Array × List (BitVec 8))) : Bindings :=
  values.foldl (fun b v => bind b v.1 v.2) b

/-- The assignment of the objects to the values, in order. -/
def create (objects : List Array) (values : List (List (BitVec 8)))
    (allowFreeValues : Bool) : Assignment :=
  ⟨allowFreeValues, bindAll ∅ (objects.zip values)⟩

variable (constArrayOpt : Bool) (a : Assignment)

/-- The byte that is bound, if there is one. -/
def byte? (array : Array) (index : Nat) : Option (BitVec 8) := do
  (← a.bindings.lookup array)[index]?

def getInitialValue (array : Array) (index : Nat) : Expr :=
  match a.byte? array index with
  | some value => .constant ⟨8, value⟩
  | none =>
    if a.allowFreeValues then ReadExpr.create constArrayOpt array .null
      (Expr.const index Array.domain)
    else Expr.const 0 Array.range

def evaluate (e : Expr) : Option Expr :=
  ExprEvaluator.evaluate constArrayOpt (a.getInitialValue constArrayOpt) e

end Assignment

end VitalSE
