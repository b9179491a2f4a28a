import VitalSE.Solver.Solver
import VitalSE.Expr.Assignment

/-!
# The independent solver

A solver of the chain that asks only about the constraints that have to do with
the query. Which array bytes an expression depends on is an over-approximation:
single elements for reads at a constant position, and the whole array as soon
as one read is at a symbolic position. Constraints that share bytes with the
query, directly or through other constraints, are passed on.

Sets that the source keeps ordered by address are lists here; their order
decides nothing but the order in which arrays are asked for.
-/

namespace VitalSE

/-! ## Reads -/

/-- A read as it is found in an expression. -/
structure FoundRead where
  root : Array
  head : UpdateNode
  index : Expr

mutual

/-- All reads in an expression, those in update lists too. The tables of what
has been visited are left out: the reads are put into sets. -/
def Expr.findReads : Expr → List FoundRead
  | .constant _ => []
  | .notOptimized src => src.findReads
  | .read root head index =>
    ⟨root, head, index⟩ :: (index.findReads ++ head.findReads)
  | .select cond trueExpr falseExpr =>
    cond.findReads ++ trueExpr.findReads ++ falseExpr.findReads
  | .concat left right => left.findReads ++ right.findReads
  | .extract expr _ _ => expr.findReads
  | .zext src _ => src.findReads
  | .sext src _ => src.findReads
  | .not expr => expr.findReads
  | .binary _ left right => left.findReads ++ right.findReads
  | .cmp _ left right => left.findReads ++ right.findReads

def UpdateNode.findReads : UpdateNode → List FoundRead
  | .null => []
  | .node next index value => index.findReads ++ value.findReads ++ next.findReads

end

/-! ## Element sets -/

namespace DenseSet

def add (s : List Nat) (x : Nat) : List Nat := if x ∈ s then s else s ++ [x]

def addStep (s : List Nat × Bool) (x : Nat) : List Nat × Bool :=
  if s.2 || x ∉ s.1 then (add s.1 x, true) else s

/-- The union, and whether it differs from the first set. -/
def addAll (s b : List Nat) : List Nat × Bool := b.foldl addStep (s, false)

def intersects (s b : List Nat) : Bool := s.any (· ∈ b)

end DenseSet

structure IndependentElementSet where
  /-- The elements of arrays that are read at constant positions only. -/
  elements : AList fun _ : Array => List Nat
  /-- The arrays that are read at a symbolic position. -/
  wholeObjects : List Array
  /-- The expressions of this factor. -/
  exprs : List Expr

namespace IndependentElementSet

/-- The elements of an array, none if it has no entry. -/
def elementsOf (x : IndependentElementSet) (array : Array) : List Nat :=
  (x.elements.lookup array).getD []

def insertWhole (x : IndependentElementSet) (array : Array) : IndependentElementSet :=
  { x with
    elements := x.elements.erase array
    wholeObjects := if array ∈ x.wholeObjects then x.wholeObjects
      else x.wholeObjects ++ [array] }

/-- Reads of a constant array that is not updated do not count. -/
def addRead (x : IndependentElementSet) (re : FoundRead) : IndependentElementSet :=
  if re.root.isConstantArray && re.head = .null then x
  else if re.root ∈ x.wholeObjects then x
  else match re.index with
    | .constant ce =>
      let dis := DenseSet.add (x.elementsOf re.root) (ce.toNat % 2 ^ 32)
      { x with elements := x.elements.insert re.root dis }
    | _ => x.insertWhole re.root

def ofExpr (e : Expr) : IndependentElementSet :=
  e.findReads.foldl addRead ⟨∅, [], [e]⟩

def intersects (x b : IndependentElementSet) : Bool :=
  x.wholeObjects.any (fun array =>
      array ∈ b.wholeObjects || (b.elements.lookup array).isSome) ||
    x.elements.entries.any fun it =>
      it.1 ∈ b.wholeObjects || DenseSet.intersects it.2 (b.elementsOf it.1)

def addWhole (x : IndependentElementSet × Bool) (array : Array) :
    IndependentElementSet × Bool :=
  match x.1.elements.lookup array with
  | some _ => (x.1.insertWhole array, true)
  | none => if array ∈ x.1.wholeObjects then x else (x.1.insertWhole array, true)

def addElements (x : IndependentElementSet × Bool)
    (it : Sigma fun _ : Array => List Nat) : IndependentElementSet × Bool :=
  if it.1 ∈ x.1.wholeObjects then x
  else match x.1.elements.lookup it.1 with
    | none => ({ x.1 with elements := x.1.elements.insert it.1 it.2 }, true)
    | some dis =>
      let (dis', modified) := DenseSet.addAll dis it.2
      ({ x.1 with elements := x.1.elements.insert it.1 dis' }, x.2 || modified)

/-- The union, and whether the bytes differ from those of the first set. -/
def add (x b : IndependentElementSet) : IndependentElementSet × Bool :=
  b.elements.entries.foldl addElements
    (b.wholeObjects.foldl addWhole ({ x with exprs := x.exprs ++ b.exprs }, false))

end IndependentElementSet

open IndependentElementSet

/-! ## The constraints of a query -/

/-- One pass over the constraints that are left: those that share bytes with the
closure join it. Answers the closure, whether it stayed as it was, the
constraints that joined it and those that are left. -/
def closurePass : List (Expr × IndependentElementSet) → IndependentElementSet →
    IndependentElementSet × Bool × List Expr × List (Expr × IndependentElementSet)
  | [], eltsClosure => (eltsClosure, true, [], [])
  | (constraint, elts) :: worklist, eltsClosure =>
    if elts.intersects eltsClosure then
      let (eltsClosure, modified) := eltsClosure.add elts
      let (eltsClosure, done, result, newWorklist) := closurePass worklist eltsClosure
      (eltsClosure, !modified && done, constraint :: result, newWorklist)
    else
      let (eltsClosure, done, result, newWorklist) := closurePass worklist eltsClosure
      (eltsClosure, done, result, (constraint, elts) :: newWorklist)

def closureLoop : Nat → List (Expr × IndependentElementSet) → IndependentElementSet →
    Option (IndependentElementSet × List Expr)
  | 0, _, _ => none
  | fuel + 1, worklist, eltsClosure =>
    let (eltsClosure, done, result, newWorklist) := closurePass worklist eltsClosure
    if done then some (eltsClosure, result)
    else do
      let (eltsClosure, result') ← closureLoop fuel newWorklist eltsClosure
      return (eltsClosure, result ++ result')

/-- The constraints that share bytes with the query, and all their bytes. Every
pass but the last takes a constraint off the list. -/
def getIndependentConstraints (query : Query) :
    Option (IndependentElementSet × List Expr) :=
  closureLoop (query.constraints.length + 1)
    (query.constraints.map fun constraint => (constraint, ofExpr constraint))
    (ofExpr query.expr)

/-! ## The solver -/

structure IndependentSolver (S : Type) where
  solver : SolverImpl S
  constArrayOpt : Bool

namespace IndependentSolver

variable {S : Type} (is : IndependentSolver S)

/-- The query with the constraints that share bytes with it. -/
def restrict (query : Query) : Except Abort Query :=
  match getIndependentConstraints query with
  | some (_, required) => return ⟨required, query.expr⟩
  | none => throw .outOfFuel

def computeValidity (query : Query) : SolverM S (Option Validity) := do
  is.solver.computeValidity (← restrict query)

def computeTruth (query : Query) : SolverM S (Option Bool) := do
  is.solver.computeTruth (← restrict query)

def computeValue (query : Query) : SolverM S (Option Expr) := do
  is.solver.computeValue (← restrict query)

end IndependentSolver

end VitalSE
