import VitalSE.Solver.Solver

/-!
# The caching solver

A solver of the chain that remembers what is known about a query. What it keeps
is a partial validity, since a truth query settles only one of the two sides,
and it keeps it under the smaller of the expression and its negation, so that
one entry serves both.

The order on expressions compares kinds and hash values before contents. It is a
parameter here: which of the two expressions is the smaller decides where a
result is stored, and nothing else.
-/

namespace VitalSE

/-- What is known of a query. -/
inductive PartialValidity where
  | mustBeTrue
  | mustBeFalse
  /-- A model in which the expression is true is known to exist. -/
  | mayBeTrue
  /-- A model in which the expression is false is known to exist. -/
  | mayBeFalse
  | trueOrFalse
  | none
deriving DecidableEq

namespace IncompleteSolver

def negatePartialValidity : PartialValidity → Except Abort PartialValidity
  | .mustBeTrue => return .mustBeFalse
  | .mustBeFalse => return .mustBeTrue
  | .mayBeTrue => return .mayBeFalse
  | .mayBeFalse => return .mayBeTrue
  | .trueOrFalse => return .trueOrFalse
  | .none => throw (.assertion "invalid partial validity")

end IncompleteSolver

open IncompleteSolver (negatePartialValidity)

structure CacheEntry where
  constraints : List Expr
  query : Expr
deriving DecidableEq

structure CachingSolver (S : Type) where
  solver : SolverImpl S
  /-- Whether `compare` puts the first expression before the second. -/
  less : Expr → Expr → Bool
  constArrayOpt : Bool

namespace CachingSolver

/-- The cache, and the state of the solver below. -/
structure State (S : Type) where
  cache : List (CacheEntry × PartialValidity)
  inner : S

variable {S : Type} (cs : CachingSolver S)

/-- Ask the solver below. -/
def ask {α : Type} (m : SolverM S α) : SolverM (State S) α := do
  let (a, s) ← (m (← get).inner : Except Abort _)
  modify fun st => { st with inner := s }
  return a

/-- The canonical version of a query, and whether it is the negation. -/
def canonicalizeQuery (originalQuery : Expr) : Expr × Bool :=
  let negatedQuery := originalQuery.createIsZero cs.constArrayOpt
  if cs.less originalQuery negatedQuery then (originalQuery, false)
  else (negatedQuery, true)

def cacheLookup (query : Query) :
    SolverM (State S) (Option PartialValidity) := do
  let (canonicalQuery, negationUsed) := cs.canonicalizeQuery query.expr
  match (← get).cache.lookup ⟨query.constraints, canonicalQuery⟩ with
  | some r =>
    let result ← if negationUsed then negatePartialValidity r else pure r
    return some result
  | none => return none

/-- An entry that is there already is kept: the map inserts new keys only. -/
def cacheInsert (query : Query) (result : PartialValidity) :
    SolverM (State S) Unit := do
  let (canonicalQuery, negationUsed) := cs.canonicalizeQuery query.expr
  let ce : CacheEntry := ⟨query.constraints, canonicalQuery⟩
  let cachedResult ← if negationUsed then negatePartialValidity result
    else pure result
  modify fun st => match st.cache.lookup ce with
    | some _ => st
    | none => { st with cache := (ce, cachedResult) :: st.cache }

/-- The validity of a query that is not cached. -/
def validityMiss (query : Query) : SolverM (State S) (Option Validity) := do
  match ← ask (cs.solver.computeValidity query) with
  | none => return none
  | some result =>
    let cachedResult := match result with
      | .true => .mustBeTrue
      | .false => .mustBeFalse
      | .unknown => .trueOrFalse
    cs.cacheInsert query cachedResult
    return some result

def computeValidity (query : Query) : SolverM (State S) (Option Validity) := do
  match ← cs.cacheLookup query with
  | none => cs.validityMiss query
  | some .mustBeTrue => return some .true
  | some .mustBeFalse => return some .false
  | some .trueOrFalse => return some .unknown
  | some .mayBeTrue =>
    match ← ask (cs.solver.computeTruth query) with
    | none => return none
    | some true =>
      cs.cacheInsert query .mustBeTrue
      return some .true
    | some false =>
      cs.cacheInsert query .trueOrFalse
      return some .unknown
  | some .mayBeFalse =>
    match ← ask (cs.solver.computeTruth (query.negateExpr cs.constArrayOpt)) with
    | none => return none
    | some true =>
      cs.cacheInsert query .mustBeFalse
      return some .false
    | some false =>
      cs.cacheInsert query .trueOrFalse
      return some .unknown
  | some .none => throw (.assertion "unreachable")

def computeTruth (query : Query) : SolverM (State S) (Option Bool) := do
  let cachedResult ← cs.cacheLookup query
  -- A query that may be true still has to be asked: is there a model in which
  -- it is false?
  if cachedResult = none ∨ cachedResult = some .mayBeTrue then
    match ← ask (cs.solver.computeTruth query) with
    | none => return none
    | some isValid =>
      cs.cacheInsert query
        (if isValid then .mustBeTrue
        else if cachedResult = some .mayBeTrue then .trueOrFalse
        else .mayBeFalse)
      return some isValid
  else return some (cachedResult = some .mustBeTrue)

/-- The caching solver as a solver of the chain. -/
def impl : SolverImpl (State S) where
  computeValidity := cs.computeValidity
  computeTruth := cs.computeTruth
  computeValue query := ask (cs.solver.computeValue query)
  computeInitialValues query objects :=
    ask (cs.solver.computeInitialValues query objects)

end CachingSolver

/-! ## Sequences of queries -/

inductive SolverImpl.Request where
  | validity (query : Query)
  | truth (query : Query)
  | value (query : Query)

/-- What a solver replies; `none` is a failure. -/
inductive SolverImpl.Reply where
  | validity (result : Option Validity)
  | truth (isValid : Option Bool)
  | value (result : Option Expr)

namespace SolverImpl

variable {S : Type} (impl : SolverImpl S)

def reply : Request → SolverM S Reply
  | .validity q => return .validity (← impl.computeValidity q)
  | .truth q => return .truth (← impl.computeTruth q)
  | .value q => return .value (← impl.computeValue q)

/-- Ask one query after the other. -/
def replies : List Request → SolverM S (List Reply)
  | [] => return []
  | r :: rs => return (← impl.reply r) :: (← replies rs)

end SolverImpl

end VitalSE
