import VitalSE.Core.SplittedSearcher

/-!
# Searchers that wrap a searcher

The batching searcher stays with one state for some time, the deepening searcher
puts a state aside that has run for too long, and the merging searcher puts a
state aside that waits for others. What is wrapped is any searcher: the wrappers
only use its three operations.

The wall time and the number of instructions that have been executed are read at
each call. Times are in the ticks of the clock.
-/

namespace VitalSE.Searchers

open Mcts (SearcherUpdate)

/-- What a searcher reads from outside. -/
structure Now where
  wallTime : Int
  instructions : Nat

/-- The operations of a searcher whose state is of type `σ`. -/
structure Searcher (σ : Type) where
  selectState : Now → σ → Except Abort (StateRef × σ)
  update : Now → SearcherUpdate → σ → Except Abort σ
  empty : σ → Bool

/-- The depth-first searcher of states none of which is a simulation state. -/
def DFSSearcher.searcher : Searcher (List StateRef) where
  selectState _ states := do return (← Mcts.DFSSearcher.selectState states, states)
  update _ u states := Mcts.DFSSearcher.update (fun _ => false) states u
  empty := List.isEmpty

/-! ## Batching -/

structure BatchingSearcher (σ : Type) where
  baseSearcher : σ
  timeBudgetEnabled : Bool
  timeBudget : Int
  instructionBudgetEnabled : Bool
  instructionBudget : Nat
  lastState : Option StateRef
  lastStartTime : Int
  lastStartInstructions : Nat

namespace BatchingSearcher

variable {σ : Type}

def create (baseSearcher : σ) (timeBudget : Int) (instructionBudget : Nat) :
    BatchingSearcher σ where
  baseSearcher := baseSearcher
  timeBudgetEnabled := timeBudget ≠ 0
  timeBudget := timeBudget
  instructionBudgetEnabled := 0 < instructionBudget
  instructionBudget := instructionBudget
  lastState := none
  lastStartTime := 0
  lastStartInstructions := 0

def withinTimeBudget (now : Now) (x : BatchingSearcher σ) : Bool :=
  !x.timeBudgetEnabled || now.wallTime - x.lastStartTime ≤ x.timeBudget

/-- The difference is one of unsigned integers of 64 bits. -/
def withinInstructionBudget (now : Now) (x : BatchingSearcher σ) : Bool :=
  !x.instructionBudgetEnabled ||
    (now.instructions + 2 ^ 64 - x.lastStartInstructions) % 2 ^ 64 ≤ x.instructionBudget

/-- The state of the batch that is running, if it goes on. -/
def continues (now : Now) (x : BatchingSearcher σ) : Option StateRef :=
  if x.withinTimeBudget now && x.withinInstructionBudget now then x.lastState else none

/-- The time budget is made larger than the time between two calls. What a budget
times 1.1 is in floating-point arithmetic is given from outside. -/
def growBudget (stretch : Int → Int) (now : Now) (x : BatchingSearcher σ) :
    BatchingSearcher σ :=
  let delta := now.wallTime - x.lastStartTime
  if x.lastState.isSome && x.timeBudgetEnabled && stretch x.timeBudget < delta then
    { x with timeBudget := delta }
  else x

/-- The start of the instruction count is kept in 32 bits. -/
def start (now : Now) (s : StateRef) (baseSearcher : σ) (x : BatchingSearcher σ) :
    BatchingSearcher σ :=
  { x with
    baseSearcher := baseSearcher
    lastState := some s
    lastStartTime := if x.timeBudgetEnabled then now.wallTime else x.lastStartTime
    lastStartInstructions :=
      if x.instructionBudgetEnabled then now.instructions % 2 ^ 32
      else x.lastStartInstructions }

def selectState (base : Searcher σ) (stretch : Int → Int) (now : Now)
    (x : BatchingSearcher σ) : Except Abort (StateRef × BatchingSearcher σ) :=
  match x.continues now with
  | some s => .ok (s, x)
  | none => do
    let (s, baseSearcher) ← base.selectState now x.baseSearcher
    return (s, (x.growBudget stretch now).start now s baseSearcher)

def update (base : Searcher σ) (now : Now) (u : SearcherUpdate) (x : BatchingSearcher σ) :
    Except Abort (BatchingSearcher σ) := do
  let lastState := x.lastState.filter fun s => s ∉ u.removedStates
  let baseSearcher ← base.update now u x.baseSearcher
  return { x with lastState := lastState, baseSearcher := baseSearcher }

def searcher (base : Searcher σ) (stretch : Int → Int) : Searcher (BatchingSearcher σ) where
  selectState := selectState base stretch
  update := update base
  empty x := base.empty x.baseSearcher

end BatchingSearcher

/-! ## Iterative deepening by time -/

structure IterativeDeepeningTimeSearcher (σ : Type) where
  baseSearcher : σ
  startTime : Int
  time : Int
  pausedStates : List StateRef

namespace IterativeDeepeningTimeSearcher

variable {σ : Type}

/-- The time budget at the beginning, in the ticks of the clock. -/
def oneSecond : Int := 1000000000

def create (baseSearcher : σ) : IterativeDeepeningTimeSearcher σ where
  baseSearcher := baseSearcher
  startTime := 0
  time := oneSecond
  pausedStates := []

/-- A duration times two, in a signed integer of 64 bits. -/
def double (time : Int) : Int := Int.bmod (time * 2) (2 ^ 64)

def selectState (base : Searcher σ) (now : Now) (x : IterativeDeepeningTimeSearcher σ) :
    Except Abort (StateRef × IterativeDeepeningTimeSearcher σ) := do
  let (res, baseSearcher) ← base.selectState now x.baseSearcher
  return (res, { x with baseSearcher := baseSearcher, startTime := now.wallTime })

/-- The loop over the removed states: the paused ones are not known to the wrapped
searcher. The paused states that are left, and the others that are removed. -/
def filterPaused : List StateRef → List StateRef × List StateRef → List StateRef × List StateRef
  | [], r => r
  | state :: rest, (pausedStates, alt) =>
    filterPaused rest
      (if state ∈ pausedStates then (pausedStates.erase state, alt.filter (· ≠ state))
        else (pausedStates, alt))

/-- Pause the current state if its time is over. -/
def pauseCurrent (base : Searcher σ) (now : Now) (u : SearcherUpdate) (elapsed : Int)
    (x : IterativeDeepeningTimeSearcher σ) :
    Except Abort (IterativeDeepeningTimeSearcher σ) :=
  match u.current with
  | none => .ok x
  | some current =>
    if current ∉ u.removedStates ∧ x.time < elapsed then do
      let baseSearcher ← base.update now ⟨none, [], [current]⟩ x.baseSearcher
      return { x with
        baseSearcher := baseSearcher
        pausedStates := x.pausedStates.insert current }
    else .ok x

/-- Give the paused states back if there are no others. -/
def refill (base : Searcher σ) (now : Now) (x : IterativeDeepeningTimeSearcher σ) :
    Except Abort (IterativeDeepeningTimeSearcher σ) :=
  if base.empty x.baseSearcher then do
    let baseSearcher ← base.update now ⟨none, x.pausedStates, []⟩ x.baseSearcher
    return { x with
      baseSearcher := baseSearcher
      time := double x.time
      pausedStates := [] }
  else .ok x

def update (base : Searcher σ) (now : Now) (u : SearcherUpdate)
    (x : IterativeDeepeningTimeSearcher σ) :
    Except Abort (IterativeDeepeningTimeSearcher σ) := do
  let elapsed := now.wallTime - x.startTime
  let (pausedStates, alt) := filterPaused u.removedStates (x.pausedStates, u.removedStates)
  let baseSearcher ← base.update now { u with removedStates := alt } x.baseSearcher
  let x ← pauseCurrent base now u elapsed
    { x with baseSearcher := baseSearcher, pausedStates := pausedStates }
  refill base now x

def searcher (base : Searcher σ) : Searcher (IterativeDeepeningTimeSearcher σ) where
  selectState := selectState base
  update := update base
  empty x := base.empty x.baseSearcher && x.pausedStates.isEmpty

end IterativeDeepeningTimeSearcher

end VitalSE.Searchers
