import VitalSE.Expr.Constraints
import VitalSE.Expr.Eval
import VitalSE.Lib.Runs

/-!
# Solvers

A solver answers queries about a set of constraints. `SolverImpl` is the
interface that the solvers of the chain implement, each over the one below it;
`Solver` is the front of the chain, which answers constant queries itself. A
solver may keep a state between queries, and may fail to answer.

`SolverImpl.Correct` says what an answer has to be. Models are taken from a set
`A` of valuations, so that one statement covers a solver whose arrays are total
and one for which there is nothing beyond the size of an array.
-/

namespace VitalSE

abbrev SolverM (S : Type) := StateT S (Except Abort)

structure Query where
  constraints : List Expr
  expr : Expr

namespace Query

def withExpr (q : Query) (e : Expr) : Query := ⟨q.constraints, e⟩

/-- The query with a false expression. -/
def withFalse (q : Query) : Query := q.withExpr (Expr.const 0 1)

def negateExpr (constArrayOpt : Bool) (q : Query) : Query :=
  q.withExpr (q.expr.createIsZero constArrayOpt)

end Query

inductive Validity where
  | true
  | false
  | unknown
deriving DecidableEq

/-- What a solver of the chain implements. An answer `none` is a failure. -/
structure SolverImpl (S : Type) where
  computeValidity : Query → SolverM S (Option Validity)
  computeTruth : Query → SolverM S (Option Bool)
  computeValue : Query → SolverM S (Option Expr)
  /-- The values of the arrays, or `some none` when there is no solution. -/
  computeInitialValues : Query → List Array →
    SolverM S (Option (Option (List (List (BitVec 8)))))

namespace Solver

variable {S : Type} (impl : SolverImpl S)

def evaluate (query : Query) : SolverM S (Option Validity) :=
  if query.expr.getWidth ≠ 1 then
    throw (.assertion "Invalid expression type!")
  else match query.expr with
    | .constant c =>
      return some (if ConstantExpr.isTrue c then .true else .false)
    | _ => impl.computeValidity query

def mustBeTrue (query : Query) : SolverM S (Option Bool) :=
  if query.expr.getWidth ≠ 1 then
    throw (.assertion "Invalid expression type!")
  else match query.expr with
    | .constant c => return some (ConstantExpr.isTrue c)
    | _ => impl.computeTruth query

def getValue (query : Query) : SolverM S (Option APInt) :=
  match query.expr with
  | .constant c => return some c
  | _ => do
    match ← impl.computeValue query with
    | none => return none
    | some (.constant c) => return some c
    | some _ => throw (.assertion
        "cast<Ty>() argument of incompatible type!")

/-- No solution is a failure as well. -/
def getInitialValues (query : Query) (objects : List Array) :
    SolverM S (Option (List (List (BitVec 8)))) := do
  match ← impl.computeInitialValues query objects with
  | some (some values) => return some values
  | _ => return none

end Solver

/-! ## Correct answers -/

/-- An answer is right, or there is none and that is permitted. -/
def Answer {α : Type} (mayFail : Prop) (P : α → Prop) : Option α → Prop
  | none => mayFail
  | some a => P a

/-- A right answer to one question is one to another. -/
theorem answer_imp {S α : Type} {Inv : S → Prop} {mayFail : Prop} {P Q : α → Prop}
    {m : SolverM S (Option α)} {s : S} (h : Runs m s fun r s' => Inv s' ∧ Answer mayFail P r)
    (hPQ : ∀ a, P a → Q a) : Runs m s fun r s' => Inv s' ∧ Answer mayFail Q r := by
  refine h.imp fun r s' hr => ⟨hr.1, ?_⟩
  cases r with
  | none => exact hr.2
  | some a => exact hPQ a hr.2

namespace Query

/-- The queries that a solver is asked: the constraints are boolean, and a
division by zero is never what decides between two answers. -/
structure Proper (A : Valuation → Prop) (q : Query) : Prop where
  boolean : Boolean q.constraints
  decided : Decided A q.constraints
  typed : Typed q.expr q.expr.getWidth
  defined : ∀ σ, A σ → AllHold σ q.constraints → (q.expr.eval σ).isSome

theorem Proper.denotes {A : Valuation → Prop} {q : Query} {σ : Valuation} {w : Nat}
    (hq : q.Proper A) (hw : q.expr.getWidth = w) (hA : A σ) (hσ : AllHold σ q.constraints) :
    ∃ x : BitVec w, Denotes σ q.expr x := by
  obtain ⟨v, hv⟩ := Option.isSome_iff_exists.mp (hq.defined σ hA hσ)
  obtain ⟨x, -, hx⟩ := hq.typed.denotes hv
  exact hw ▸ ⟨x, hx⟩

/-- The expression follows from the constraints. -/
def Entailed (A : Valuation → Prop) (q : Query) : Prop :=
  ∀ σ, A σ → AllHold σ q.constraints → Holds σ q.expr

/-- The negation of the expression follows from the constraints. -/
def Refuted (A : Valuation → Prop) (q : Query) : Prop :=
  ∀ σ, A σ → AllHold σ q.constraints → Fails σ q.expr

end Query

def Validity.Of (A : Valuation → Prop) (q : Query) : Validity → Prop
  | .true => q.Entailed A
  | .false => q.Refuted A
  | .unknown => ¬q.Entailed A ∧ ¬q.Refuted A

/-- The bytes that `σ` gives an array. -/
def Valuation.bytes (σ : Valuation) (a : Array) : List (BitVec 8) :=
  (List.range a.size).map (σ a)

/-- A sound and complete solver, as long as `Inv` holds of its state, which
every query preserves. With `mayFail` it may also fail to answer. Queries have
satisfiable constraints, except those for initial values. -/
structure SolverImpl.Correct {S : Type} (A : Valuation → Prop) (mayFail : Prop)
    (Inv : S → Prop) (impl : SolverImpl S) : Prop where
  validity : ∀ {q : Query} {s : S}, q.Proper A → q.expr.getWidth = 1 →
    Satisfiable A q.constraints → Inv s →
    Runs (impl.computeValidity q) s fun r s' =>
      Inv s' ∧ Answer mayFail (Validity.Of A q) r
  truth : ∀ {q : Query} {s : S}, q.Proper A → q.expr.getWidth = 1 →
    Satisfiable A q.constraints → Inv s →
    Runs (impl.computeTruth q) s fun r s' =>
      Inv s' ∧ Answer mayFail (fun b => b = true ↔ q.Entailed A) r
  value : ∀ {q : Query} {s : S}, q.Proper A → Satisfiable A q.constraints →
    Inv s → Runs (impl.computeValue q) s fun r s' =>
      Inv s' ∧ Answer mayFail (fun e => ∃ v σ, e = .constant v ∧ A σ ∧
        AllHold σ q.constraints ∧ q.expr.eval σ = some v) r
  initialValues : ∀ {q : Query} {s : S} {objects : List Array}, q.Proper A →
    q.expr.getWidth = 1 → Inv s →
    Runs (impl.computeInitialValues q objects) s fun r s' =>
      Inv s' ∧ Answer mayFail (fun
        | none => q.Entailed A
        | some values => ∃ σ, A σ ∧ AllHold σ q.constraints ∧ Fails σ q.expr ∧
            values = objects.map σ.bytes) r

end VitalSE
