import VitalSE.Solver.IndependentSolver

/-!
# The counterexample cache

A query is the set of its constraints and of the negation of its expression, and
the cache has for such sets an assignment that satisfies them, or none when there
is no such assignment. Larger and smaller sets may answer for a set as well. The
orders in which the sets and the assignments are visited are parameters.
-/

namespace VitalSE

structure CexCachingSolver (S : Type) where
  solver : SolverImpl S
  constArrayOpt : Bool
  cexCacheTryAll : Bool
  cexCacheSuperSet : Bool
  cexCacheExperimental : Bool
  visit : List (List Expr × Option Assignment) → List (List Expr × Option Assignment)
  visitTable : List Assignment → List Assignment

namespace CexCachingSolver

/-- The cache, the assignments, and the state of the solver below. -/
structure State (S : Type) where
  cache : List (List Expr × Option Assignment)
  assignmentsTable : List Assignment
  inner : S
  /-- Ghost: the solver below has failed in the present query. -/
  failed : Bool

variable {S : Type} (cs : CexCachingSolver S)

def satisfies (key : List Expr) (a : Assignment) : Bool :=
  key.all fun e => match a.evaluate cs.constArrayOpt e with
    | some (.constant c) => ConstantExpr.isTrue c
    | _ => false

/-- The first set over `key` whose assignment is as asked for. -/
def findSuperset (st : State S) (key : List Expr) (p : Option Assignment → Bool) :
    Option (Option Assignment) :=
  ((cs.visit st.cache).find? fun x => key.all (· ∈ x.1) && p x.2).map (·.2)

def findSubset (st : State S) (key : List Expr) (p : Option Assignment → Bool) :
    Option (Option Assignment) :=
  ((cs.visit st.cache).find? fun x => x.1.all (· ∈ key) && p x.2).map (·.2)

def searchForAssignment (st : State S) (key : List Expr) :
    Option (Option Assignment) :=
  let lookup := (st.cache.find? fun x =>
    key.all (· ∈ x.1) && x.1.all (· ∈ key)).map (·.2)
  let superset := if cs.cexCacheSuperSet then
    cs.findSuperset st key (·.isSome) else none
  lookup.or <| superset.or <|
    if cs.cexCacheTryAll then
      (cs.findSubset st key (·.isNone)).or
        (((cs.visitTable st.assignmentsTable).find? (cs.satisfies key)).map some)
    else cs.findSubset st key fun a => a.all (cs.satisfies key)

/-- The set of the query, and what the cache has for it. -/
def lookupAssignment (st : State S) (query : Query) :
    List Expr × Option (Option Assignment) :=
  let key := query.constraints.dedup
  match query.expr.createIsZero cs.constArrayOpt with
  | .constant c =>
    if ConstantExpr.isFalse c then (key, some none)
    else (key, cs.searchForAssignment st key)
  | neg => (key.insert neg, cs.searchForAssignment st (key.insert neg))

def findSymbolicObjects (key : List Expr) : List Array :=
  (((key.flatMap Expr.findReads).map (·.root)).filter (·.isSymbolicArray)).dedup

def getAssignment (query : Query) :
    SolverM (State S) (Option (Option Assignment)) := do
  let st ← get
  let (key, found) := cs.lookupAssignment st query
  match found with
  | some result => return some result
  | none =>
    let objects := findSymbolicObjects key
    let (answer, inner) ←
      (cs.solver.computeInitialValues query objects st.inner : Except Abort _)
    match answer with
    | none =>
      set { st with inner := inner, failed := true }
      return none
    | some values =>
      let binding := values.map fun v => Assignment.create objects v false
      set { st with
        inner := inner
        cache := (key, binding) :: st.cache
        assignmentsTable := binding.toList ++ st.assignmentsTable }
      return some binding

/-- The value of the expression under an assignment that there must be. -/
def evaluate (message : String) (a : Option Assignment) (query : Query) :
    Except Abort APInt :=
  match a with
  | none => throw (.assertion message)
  | some a => match a.evaluate cs.constArrayOpt query.expr with
    | some (.constant c) => return c
    | _ => throw (.assertion "assignment evaluation did not result in constant")

def computeValidity (query : Query) : SolverM (State S) (Option Validity) := do
  let some a ← cs.getAssignment query.withFalse | return none
  let q ← cs.evaluate "computeValidity() must have assignment" a query
  if ConstantExpr.isTrue q then
    let some a ← cs.getAssignment query | return none
    return some (if a.isNone then .true else .unknown)
  else
    let some a ← cs.getAssignment (query.negateExpr cs.constArrayOpt)
      | return none
    return some (if a.isNone then .false else .unknown)

/-- What is known of the negation, for `CexCacheExperimental`. -/
def negationRefuted (st : State S) (query : Query) : Bool :=
  cs.cexCacheExperimental &&
    (cs.lookupAssignment st (query.negateExpr cs.constArrayOpt)).2 matches some none

def computeTruth (query : Query) : SolverM (State S) (Option Bool) := do
  if cs.negationRefuted (← get) query then return none
  let some a ← cs.getAssignment query | return none
  return some a.isNone

def computeValue (query : Query) : SolverM (State S) (Option APInt) := do
  let some a ← cs.getAssignment query.withFalse | return none
  return some (← cs.evaluate "computeValue() must have assignment" a query)

def computeInitialValues (query : Query) (objects : List Array) :
    SolverM (State S) (Option (Option (List (List (BitVec 8))))) := do
  let some a ← cs.getAssignment query | return none
  return some (a.map fun a => objects.map fun os =>
    (a.bindings.lookup os).getD (List.replicate os.size 0))

inductive Request
  | validity (query : Query)
  | truth (query : Query)
  | value (query : Query)
  | initialValues (query : Query) (objects : List Array)

/-- Answer a request; says whether a failure is reported. -/
def fails (r : Request) : SolverM (State S) Bool := do
  modify fun st => { st with failed := false }
  match r with
  | .validity query => return (← cs.computeValidity query).isNone
  | .truth query => return (← cs.computeTruth query).isNone
  | .value query => return (← cs.computeValue query).isNone
  | .initialValues query objects =>
    return (← cs.computeInitialValues query objects).isNone

end CexCachingSolver

end VitalSE
