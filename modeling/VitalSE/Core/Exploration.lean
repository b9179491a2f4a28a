import VitalSE.Core.Searcher

/-!
# The interpreter loop

One round of the loop takes a state from the searcher, executes its next
instruction and brings the lists of states up to date. What an instruction does
to the states is given from outside as a list of effects, so that a run stands
for the runs of every program: an instruction jumps, adds constraints, forks,
branches and terminates states in whatever order it likes. An effect on a state
that is deleted is undefined.
-/

namespace VitalSE.Mcts

namespace Executor

variable (env : Env)

/-! ## Bringing the lists up to date -/

/-- Insertion into the set of states, which has no two states with one number. -/
def insertById (id : Nat) (es : StateRef) : List StateRef → ExecM (List StateRef)
  | [] => return [es]
  | s :: rest => do
    let state ← state s
    if id < state.id then return es :: s :: rest
    else if state.id = id then return s :: rest
    else return s :: (← insertById id es rest)

def insertStates : List StateRef → ExecM Unit
  | [] => return ()
  | es :: rest => do
    let states ← insertById (← state es).id es (← get).states
    modify fun x => { x with states := states }
    insertStates rest

/-- The set without the state that has this number. -/
def eraseById (id : Nat) : List StateRef → ExecM (List StateRef)
  | [] => throw (.assertion "it2!=states.end()")
  | s :: rest => do
    if (← state s).id = id then return rest
    else return s :: (← eraseById id rest)

/-- The states that the searcher is told about: not the suspended ones. -/
def filterRemoved : List StateRef → ExecM (List StateRef)
  | [] => return []
  | es :: rest => do
    let state ← state es
    let rest ← filterRemoved rest
    return if state.isNormalState && state.isSuspended then rest else es :: rest

/-- Take the node and the memory of a state. After a halt, a state whose node has
children is left where it is. -/
def disposeState (es : StateRef) : ExecM Unit := do
  let ptreeNode := (← state es).ptreeNode
  if (← get).haltExecution && (← node ptreeNode).hasChild then return ()
  else
    removeNode env ptreeNode
    deleteState es

/-- The loop of `updateStates` over the removed states. Simulation states are
left in memory. -/
def disposeStates : List StateRef → ExecM Unit
  | [] => return ()
  | es :: rest => do
    let state ← state es
    if state.isSimulationState then disposeStates rest
    else
      let states ← eraseById state.id (← get).states
      modify fun x => { x with states := states }
      disposeState env es
      disposeStates rest

/-- Tell the searcher about the lists, and empty them. -/
def updateStates (current : Option StateRef) : ExecM Unit := do
  let x ← get
  let filteredStates ← filterRemoved x.removedStates
  updateSearcher current x.addedStates filteredStates
  filteredStates.forM fun es => record (.notified es)
  x.suspendedStates.forM fun es => updateSearcher none [] [es]
  modify fun x => { x with suspendedStates := [] }
  x.resumedStates.forM fun es => updateSearcher none [es] []
  modify fun x => { x with resumedStates := [] }
  insertStates x.addedStates
  modify fun x => { x with addedStates := [] }
  disposeStates env x.removedStates
  modify fun x => { x with removedStates := [] }

/-! ## Forking -/

/-- Forking is not permitted, whether or not a simulation is running. -/
def forkLimited (state : ExecutionState) (x : Executor) : Bool :=
  (env.maxMemoryInhibit && x.atMemoryLimit) || state.forkDisabled ||
    match env.maxForks with
    | none => false
    | some max => decide (max ≤ x.forks)

def branchingPermitted (state : ExecutionState) (x : Executor) : Bool :=
  !(forkLimited env state x || x.inhibitForking)

/-- A branch is given up only because forking is inhibited. -/
def recordDropped (s : StateRef) : ExecM Unit := do
  let state ← state s
  let x ← get
  if !forkLimited env state x && x.inhibitForking then record (.dropped s state)
  else return ()

def addConstraint (s : StateRef) (condition : Expr) : ExecM Unit := do
  match condition with
  | .constant c =>
    if ConstantExpr.isTrue c then return ()
    else throw (.fatal "attempt to add invalid constraint")
  | _ =>
    let constraints ← liftM (ConstraintManager.addConstraintBounded
      env.constArrayOpt env.rewriteEqualities (← state s).constraints condition)
    modifyState s fun state => { state with constraints := constraints }

/-- `ExecutionState::branch` with what the executor does with the new state. -/
def branchState (s : StateRef) : ExecM StateRef := do
  modifyState s fun state => { state with depth := state.depth + 1 }
  let id := (← get).nextID
  let falseState ← newState { (← state s) with id := id }
  modify fun x => { x with
    nextID := id + 1
    addedStates := x.addedStates ++ [falseState] }
  return falseState

/-- `PTree::attach`, with the nodes of the two states. -/
def attachStates (leftState rightState : StateRef) : ExecM Unit := do
  let n := (← state rightState).ptreeNode
  let (t, left, right) ← (← get).processTree.attach n leftState rightState
  modify fun x => { x with processTree := t }
  modifyState leftState fun state => { state with ptreeNode := left }
  modifyState rightState fun state => { state with ptreeNode := right }

def markForked (s : StateRef) : ExecM Unit := do
  if !(← get).is_simulation_mode then
    modifyNode (← state s).ptreeNode fun node => { node with isForked := true }
  else return ()

/-- Both branches of a fork are feasible and forking is permitted. -/
def forkBoth (current : StateRef) (condition : Expr) : ExecM Unit := do
  let state ← state current
  if state.isSimulationState && (← get).is_simulation_mode then
    throw (.fatal "fork here?")
  else
    modify fun x => { x with
      forks := if state.isNormalState then x.forks + 1 else x.forks }
    let falseState ← branchState current
    markForked current
    attachStates falseState current
    addConstraint env current condition
    addConstraint env falseState (condition.createIsZero env.constArrayOpt)
    limitDepth current falseState
where
  limitDepth (trueState falseState : StateRef) : ExecM Unit := do
    if env.maxDepth ≠ 0 && env.maxDepth ≤ (← Executor.state trueState).depth then
      terminateState env trueState
      terminateState env falseState
    else return ()

/-- `fork` with the answer of the solver, which is `none` if it fails. -/
def fork (current : StateRef) (condition : Expr) (answer : Option Validity) :
    ExecM Unit := do
  match answer with
  | none =>
    modifyState current fun state => { state with pc := state.prevPC }
    terminateState env current
  | some .true | some .false => return ()
  | some .unknown =>
    if branchingPermitted env (← state current) (← get) then
      forkBoth env current condition
    else
      recordDropped env current
      let flip := (← getInt32 env).getLsbD 0
      addConstraint env current
        (if flip then condition else condition.createIsZero env.constArrayOpt)

/-- The loop of `branch` that makes the new states, each from one that is there
already. -/
def branchStates : Nat → List StateRef → ExecM (List StateRef)
  | 0, result => return result
  | n + 1, result => do
    let i := (← getInt32 env).toNat % result.length
    let es ← deref result[i]?
    let ns ← branchState es
    attachStates ns es
    branchStates n (result ++ [ns])

def addConstraints : List (StateRef × Expr) → ExecM Unit
  | [] => return ()
  | (s, condition) :: rest => do
    addConstraint env s condition
    addConstraints rest

def branch (current : StateRef) (conditions : List Expr) : ExecM Unit := do
  let state ← state current
  if branchingPermitted env state (← get) then
    modify fun x => { x with
      forks := if state.isNormalState then x.forks + (conditions.length - 1)
        else x.forks }
    let result ← branchStates env (conditions.length - 1) [current]
    addConstraints env (result.zip conditions)
  else
    recordDropped env current
    let next := (← getInt32 env).toNat % conditions.length
    match conditions[next]? with
    | none => throw (.assertion "N")
    | some condition => addConstraint env current condition

end Executor

/-! ## Instructions -/

inductive Effect where
  | jump (s : StateRef) (pc : Pc)
  | constrain (s : StateRef) (condition : Expr)
  | fork (s : StateRef) (condition : Expr) (answer : Option Validity)
  | branch (s : StateRef) (conditions : List Expr)
  /-- Termination, in an error that counts for the reward or not. -/
  | terminate (s : StateRef) (isError : Bool)
  | halt

namespace Effect

open VitalSE.Mcts.Executor in
def apply (env : Env) : Effect → ExecM Unit
  | jump s pc => modifyState s fun state => { state with pc := pc }
  | constrain s condition => addConstraint env s condition
  | fork s condition answer => Executor.fork env s condition answer
  | branch s conditions => Executor.branch env s conditions
  | terminate s isError => do
    modifyState s fun state => { state with
      errorCount := if isError && state.isSimulationState then state.errorCount + 1
        else state.errorCount }
    terminateState env s
  | halt => modify fun x => { x with haltExecution := true }

end Effect

/-- What a round of the loop depends on apart from the state of the executor. -/
structure Round where
  /-- A bound on the steps of the searcher. -/
  fuel : Nat
  effects : List Effect
  /-- The states that `checkMemoryUsage` terminates. -/
  victims : List StateRef
  atMemoryLimit : Bool

namespace Executor

variable (env : Env)

/-- An instruction may go on with a state that it has terminated: `llvm.va_start`
writes four times through a pointer, and each write that is out of bounds terminates
the state. -/
def executeInstruction : List Effect → ExecM Unit
  | [] => return ()
  | e :: rest => do
    e.apply env
    executeInstruction rest

def collectInstructionsInSimulation (pc : Pc) : ExecM Unit :=
  modify fun x =>
    if x.is_simulation_mode && env.isMemoryOperation pc &&
        pc ∉ x.memoryOperationInstructionSet then
      { x with memoryOperationInstructionSet := x.memoryOperationInstructionSet ++ [pc] }
    else x

def stepInstruction (s : StateRef) : ExecM Unit := do
  record (.stepped s (← state s))
  modifyState s fun state => { state with prevPC := state.pc, pc := state.pc + 1 }

def enterTree (s : StateRef) : ExecM Unit := do
  if !(← get).is_simulation_mode then
    modifyNode (← state s).ptreeNode fun node => { node with isInMCTSTree := true }
  else return ()

def terminateStates : List StateRef → ExecM Unit
  | [] => return ()
  | es :: rest => do
    terminateState env es
    terminateStates rest

/-- The victims are states of the set, each of them once. The lists are not
brought up to date while a simulation is running. -/
def checkMemoryUsage (round : Round) : ExecM Unit := do
  if !(decide round.victims.Nodup && round.victims.all (· ∈ (← get).states)) then
    throw (.undefined "not a choice of states")
  else
    modify fun x => { x with atMemoryLimit := round.atMemoryLimit }
    terminateStates env round.victims
    if !round.victims.isEmpty && !(← get).is_simulation_mode then updateStates env none
    else return ()

/-- A state is selected and goes to its next instruction. -/
def selectNext (fuel : Nat) : ExecM StateRef := do
  let s ← selectState env fuel
  collectInstructionsInSimulation env (← state s).pc
  stepInstruction s
  return s

/-- One round of the interpreter loop. -/
def explore (round : Round) : ExecM Unit := do
  if (← get).states = [] || (← get).haltExecution then return ()
  else
    let s ← selectNext env round.fuel
    executeInstruction env round.effects
    enterTree s
    updateStates env (some s)
    checkMemoryUsage env round

def run : List Round → ExecM Unit
  | [] => return ()
  | round :: rest => do
    explore env round
    run rest

/-- The executor with one state, and the searchers that know about it. -/
def create (pc : Pc) (simulationSearcher : SimulationSearcher) : Executor where
  heap := Function.update (fun _ => none) 0 (some
    { id := 1, type := .normal, suspendStatus := false, simulationState := none,
      dependentState := none, errorCount := 0, pc := pc, prevPC := pc,
      constraints := [], depth := 0, forkDisabled := false, ptreeNode := 0 })
  nextState := 1
  nextID := 2
  processTree := PTree.create 0
  states := [0]
  addedStates := []
  removedStates := []
  suspendedStates := []
  resumedStates := []
  is_simulation_mode := false
  inhibitForking := false
  atMemoryLimit := false
  haltExecution := false
  simulationReward := 0
  memoryOperationInstructionSet := []
  simulatedHistory := fun _ => none
  pathsExplored := 0
  pathsExploredSimulation := 0
  forks := 0
  rngPosition := 0
  children := [0]
  current_state := some 0
  simulationSearcher := simulationSearcher
  trace := []

end Executor

end VitalSE.Mcts
