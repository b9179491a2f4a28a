import VitalSE.Core.PTree
import VitalSE.Solver.Solver

/-!
# States, their lists and the simulation

What the executor does with its states apart from executing them: the set of
states and the lists of those that an instruction added and removed, the
termination of a state, and the simulation of a state by a copy that runs while
the state itself is suspended.

States are held by reference number, as the nodes of the process tree are. The
program is seen only through its instructions' numbers and through what `Env`
says about them. The trace records what happened, in the order in which it
happened; nothing reads it.
-/

namespace VitalSE.Mcts

abbrev Pc := Nat

inductive StateType where
  | normal
  | simulation
deriving DecidableEq

structure ExecutionState where
  id : Nat
  type : StateType
  suspendStatus : Bool
  simulationState : Option StateRef
  dependentState : Option StateRef
  errorCount : Nat
  pc : Pc
  prevPC : Pc
  constraints : List Expr
  depth : Nat
  forkDisabled : Bool
  ptreeNode : NodeRef
deriving DecidableEq

namespace ExecutionState

def isNormalState (s : ExecutionState) : Bool := s.type = .normal

def isSimulationState (s : ExecutionState) : Bool := s.type = .simulation

def isSuspended (s : ExecutionState) : Bool := s.suspendStatus

end ExecutionState

/-- What is kept for a basic block whose simulation is to be skipped when it has
brought nothing new for some time. -/
structure SimulationRecord where
  reward : ℚ
  repeated : ℚ
  visited : ℚ

/-- The options, and what the searcher looks up in the program. -/
structure Env where
  enable_simulation : Bool
  simulation_opt : Bool
  simulation_limit : Nat
  compressProcessTree : Bool
  maxMemoryInhibit : Bool
  maxForks : Option Nat
  maxDepth : Nat
  constArrayOpt : Bool
  rewriteEqualities : Bool
  theRNG : Nat → BitVec 32
  /-- The name of the basic block of an instruction. -/
  blockName : Pc → String
  /-- The instruction is a load, a store, a cast or pointer arithmetic. -/
  isMemoryOperation : Pc → Bool
  /-- The record of the instruction is in `globalRecordingSet`. -/
  isRecorded : Pc → Bool
  /-- The expansion scores of two states at these instructions. -/
  getExpansionScore : Pc → Pc → ℚ × ℚ
  /-- How the UCT values of two children of a node compare. -/
  compareUCT : PTreeNode → PTreeNode → PTreeNode → Ordering

inductive Event where
  | simulated (s : StateRef) (state : ExecutionState)
  | resumed (s : StateRef) (state : ExecutionState)
  | stepped (s : StateRef) (state : ExecutionState)
  | dropped (s : StateRef) (state : ExecutionState)
  | terminated (s : StateRef)
  | removed (s : StateRef)
  | notified (s : StateRef)
  | deleted (s : StateRef)
deriving DecidableEq

/-- The simulation searcher of the split searcher, if there is one. -/
inductive SimulationSearcher where
  | none
  | dfs (states : List StateRef)
  | randomPath (idBitMask : BitVec 3)
deriving DecidableEq

structure Executor where
  heap : StateRef → Option ExecutionState
  nextState : StateRef
  nextID : Nat
  processTree : PTree
  /-- Ordered by the number of the state, of which there is one at most. -/
  states : List StateRef
  addedStates : List StateRef
  removedStates : List StateRef
  suspendedStates : List StateRef
  resumedStates : List StateRef
  is_simulation_mode : Bool
  inhibitForking : Bool
  atMemoryLimit : Bool
  haltExecution : Bool
  simulationReward : ℚ
  memoryOperationInstructionSet : List Pc
  simulatedHistory : String → Option SimulationRecord
  pathsExplored : Nat
  pathsExploredSimulation : Nat
  forks : Nat
  rngPosition : Nat
  /-- The states of the MCTS searcher. -/
  children : List StateRef
  current_state : Option StateRef
  simulationSearcher : SimulationSearcher
  trace : List Event

abbrev ExecM := StateT Executor (Except Abort)

namespace Executor

/-! ## Memory -/

def state (s : StateRef) : ExecM ExecutionState := do
  match (← get).heap s with
  | some state => return state
  | none => throw (.undefined "access to a deleted state")

/-- A state through a pointer that may be null. -/
def deref (s : Option StateRef) : ExecM StateRef :=
  match s with
  | some s => return s
  | none => throw (.undefined "access through a null pointer")

def setState (s : StateRef) (state : ExecutionState) : ExecM Unit :=
  modify fun x => { x with heap := Function.update x.heap s (some state) }

def modifyState (s : StateRef) (f : ExecutionState → ExecutionState) : ExecM Unit := do
  setState s (f (← state s))

def deleteState (s : StateRef) : ExecM Unit :=
  modify fun x => { x with
    heap := Function.update x.heap s none
    trace := x.trace ++ [.deleted s] }

def newState (state : ExecutionState) : ExecM StateRef := do
  let s := (← get).nextState
  modify fun x => { x with
    heap := Function.update x.heap s (some state)
    nextState := s + 1 }
  return s

def record (event : Event) : ExecM Unit :=
  modify fun x => { x with trace := x.trace ++ [event] }

def node (n : NodeRef) : ExecM PTreeNode := do
  (← get).processTree.node n

def modifyNode (n : NodeRef) (f : PTreeNode → PTreeNode) : ExecM Unit := do
  let t ← (← get).processTree.modifyNode n f
  modify fun x => { x with processTree := t }

def removeNode (env : Env) (n : NodeRef) : ExecM Unit := do
  let t ← (← get).processTree.remove env.compressProcessTree n
  modify fun x => { x with processTree := t }

def getInt32 (env : Env) : ExecM (BitVec 32) := do
  let i := (← get).rngPosition
  modify fun x => { x with rngPosition := i + 1 }
  return env.theRNG i

/-! ## Suspending and resuming -/

def suspendState (s : StateRef) : ExecM Unit := do
  if !(← state s).isNormalState then throw (.assertion "isNormalState()")
  else
    modifyState s fun state => { state with suspendStatus := true }
    modify fun x => { x with suspendedStates := x.suspendedStates ++ [s] }

/-- The copy is not given a number of its own. -/
def startSimulationState (s : StateRef) : ExecM Unit := do
  let snapshot ← state s
  let simulationState ← newState { snapshot with
    id := 0
    type := .simulation
    dependentState := some s
    pc := snapshot.prevPC }
  modifyState s fun state => { state with simulationState := some simulationState }
  modify fun x => { x with
    addedStates := x.addedStates ++ [simulationState]
    inhibitForking := true
    trace := x.trace ++ [.simulated s snapshot] }

def resumeState (s : StateRef) : ExecM Unit := do
  let state ← state s
  if !state.isNormalState then throw (.assertion "isNormalState()")
  else
    setState s { state with
      suspendStatus := false
      simulationState := none }
    modify fun x => { x with
      addedStates := x.addedStates ++ [s]
      trace := x.trace ++ [.resumed s state] }

def getDependentState (s : StateRef) : ExecM StateRef := do
  let state ← state s
  if !state.isSimulationState then throw (.assertion "isSimulationState()")
  else deref state.dependentState

def notifyDependentState (simulationState : StateRef) : ExecM Unit := do
  let dependentState ← getDependentState simulationState
  modifyNode (← state simulationState).ptreeNode fun node =>
    { node with state := some dependentState }
  resumeState dependentState

/-! ## Termination -/

variable (env : Env)

def countPath (state : ExecutionState) : ExecM Unit :=
  modify fun x =>
    if state.isNormalState then { x with pathsExplored := x.pathsExplored + 1 }
    else { x with pathsExploredSimulation := x.pathsExploredSimulation + 1 }

/-- `terminateState` up to where it looks for a running simulation. A state that
the searcher has never seen is deleted at once; after that the code still reads
the state and writes to its node, which has no effect here. -/
def retireState (s : StateRef) : ExecM Unit := do
  let state ← state s
  record (.terminated s)
  countPath state
  if s ∈ (← get).addedStates then
    modify fun x => { x with addedStates := x.addedStates.erase s }
    removeNode env state.ptreeNode
    deleteState s
  else
    setState s { state with pc := state.prevPC }
    modify fun x => { x with
      removedStates := x.removedStates ++ [s]
      trace := x.trace ++ [.removed s] }
    if !(← get).is_simulation_mode && state.isNormalState then
      modifyNode state.ptreeNode fun node => { node with isTerminal := true }
    else return ()

/-- The loop of `onSimulationStateExit` over the states. A state is erased from
the set while the iterator of the loop is at it, and the loop goes on from there. -/
def retireSimulations : List StateRef → ExecM Unit
  | [] => return ()
  | es :: rest => do
    if (← state es).isSimulationState then
      retireState env es
      modify fun x => { x with states := x.states.erase es }
      throw (.undefined "increment of an iterator to an erased element")
    else retireSimulations rest

/-- `onSimulationStateExit` up to the loop. The simulation mode is off already, so
that what is terminated here does not come back to this handler. -/
def exitSimulation (s : StateRef) : ExecM Unit := do
  notifyDependentState s
  retireState env s

def onSimulationStateExit (s : StateRef) : ExecM Unit := do
  exitSimulation env s
  retireSimulations env (← get).states
  modify fun x => { x with inhibitForking := false }

/-- The recorded instructions that were executed, and the errors. -/
def getSimulationReward (s : StateRef) : ExecM ℚ := do
  let records := (← get).memoryOperationInstructionSet
  let reward : ℚ := (records.countP env.isRecorded + (← state s).errorCount : Nat)
  modify fun x => { x with simulationReward := reward }
  return reward

/-- What `terminateState` does when a simulation is running. -/
def endSimulation (s : StateRef) : ExecM Unit := do
  modify fun x => { x with is_simulation_mode := false }
  let reward ← getSimulationReward env s
  onSimulationStateExit env s
  let dependentState ← state (← getDependentState s)
  let t ← (← get).processTree.doBackpropagation reward dependentState.ptreeNode
  modify fun x => { x with
    processTree := t
    memoryOperationInstructionSet := [] }

def terminateState (s : StateRef) : ExecM Unit := do
  retireState env s
  if (← get).is_simulation_mode then endSimulation env s else return ()

end Executor

end VitalSE.Mcts
