import VitalSE.Core.States

/-!
# The split searcher

The split searcher gives the simulation states to one searcher and all others to
another one. The simulation searchers here keep their states in a vector; what
the searcher for the normal states does is left open.
-/

namespace VitalSE.Mcts

/-- What a searcher is told after an instruction. -/
structure SearcherUpdate where
  current : Option StateRef
  addedStates : List StateRef
  removedStates : List StateRef
deriving DecidableEq

def invalidState : Abort := .assertion "invalid state removed"

section

variable (isSimulationState : StateRef → Bool)

/-- The loop of `DFSSearcher::update` over the removed states. -/
def DFSSearcher.remove : List StateRef → List StateRef → Except Abort (List StateRef)
  | states, [] => .ok states
  | states, state :: removedStates =>
    if isSimulationState state then DFSSearcher.remove states removedStates
    else if states.getLast? = some state then
      DFSSearcher.remove states.dropLast removedStates
    else if state ∈ states then
      DFSSearcher.remove (states.erase state) removedStates
    else .error invalidState

def DFSSearcher.update (states : List StateRef) (u : SearcherUpdate) :
    Except Abort (List StateRef) :=
  DFSSearcher.remove isSimulationState (states ++ u.addedStates) u.removedStates

/-- The loop of `RandomSearcher::update` over the removed states. -/
def RandomSearcher.remove : List StateRef → List StateRef → Except Abort (List StateRef)
  | states, [] => .ok states
  | states, state :: removedStates =>
    if state ∈ states && isSimulationState state then
      RandomSearcher.remove states removedStates
    else if state ∈ states then
      RandomSearcher.remove (states.erase state) removedStates
    else .error invalidState

def RandomSearcher.update (states : List StateRef) (u : SearcherUpdate) :
    Except Abort (List StateRef) :=
  RandomSearcher.remove isSimulationState (states ++ u.addedStates) u.removedStates

end

def DFSSearcher.selectState (states : List StateRef) : Except Abort StateRef :=
  match states.getLast? with
  | some state => .ok state
  | none => .error (.undefined "back of an empty vector")

def RandomSearcher.selectState (random : BitVec 32) (states : List StateRef) :
    Except Abort StateRef :=
  match states[random.toNat % states.length]? with
  | some state => .ok state
  | none => .error (.undefined "division by zero")

/-- The searcher for the simulation states. -/
inductive SimulationSearch where
  | dfs
  | random

namespace SimulationSearch

def update (isSimulationState : StateRef → Bool) :
    SimulationSearch → List StateRef → SearcherUpdate → Except Abort (List StateRef)
  | .dfs => DFSSearcher.update isSimulationState
  | .random => RandomSearcher.update isSimulationState

def selectState (random : BitVec 32) :
    SimulationSearch → List StateRef → Except Abort StateRef
  | .dfs => DFSSearcher.selectState
  | .random => RandomSearcher.selectState random

end SimulationSearch

/-- A searcher of some type for the normal states, and the states of the simulation
searcher. -/
structure SplittedSearcher (α : Type) where
  mctsSearcher : α
  simulationSearcher : List StateRef

namespace SplittedSearcher

variable {α : Type} (isSimulationState : StateRef → Bool) (search : SimulationSearch)
  (updateMCTS : α → SearcherUpdate → Except Abort α)

def update (searcher : SplittedSearcher α) (u : SearcherUpdate) :
    Except Abort (SplittedSearcher α) := do
  let addedSimulationStates := u.addedStates.filter isSimulationState
  let addedOriginatingStates := u.addedStates.filter fun es => !isSimulationState es
  let removedSimulationStates := u.removedStates.filter isSimulationState
  let removedOriginatingStates := u.removedStates.filter fun es => !isSimulationState es
  let mctsSearcher ← updateMCTS searcher.mctsSearcher
    ⟨u.current.filter fun es => !isSimulationState es,
      addedOriginatingStates, removedOriginatingStates⟩
  let simulationSearcher ← search.update isSimulationState searcher.simulationSearcher
    ⟨u.current.filter isSimulationState, addedSimulationStates, removedSimulationStates⟩
  return ⟨mctsSearcher, simulationSearcher⟩

def run (mctsSearcher : α) (updates : List SearcherUpdate) :
    Except Abort (SplittedSearcher α) :=
  updates.foldlM (update isSimulationState search updateMCTS) ⟨mctsSearcher, []⟩

end SplittedSearcher

end VitalSE.Mcts
