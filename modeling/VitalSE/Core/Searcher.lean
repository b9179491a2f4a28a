import VitalSE.Core.SplittedSearcher

/-!
# The searchers

The split searcher hands out states of the MCTS searcher, and while a simulation
is running those of a simulation searcher. The MCTS searcher walks down the
process tree from the root: through nodes whose children are all in the search
tree by their UCT values, up to a node with a child that is not, which is
expanded. A state that is expanded for the first time is simulated.
-/

namespace VitalSE.Mcts.Executor

variable (env : Env)

/-! ## Nodes of the search tree -/

def hasEligiableChildren (n : PTreeNode) : ExecM Bool := do
  match n.left.pointer, n.right.pointer with
  | none, none => return false
  | some l, none =>
    let left ← node l
    if !left.isInMCTSTree then return !left.isTerminal
    else return !n.isForked && !n.isInMCTSTree
  | none, some r =>
    let right ← node r
    if !right.isInMCTSTree then return !right.isTerminal
    else return !n.isForked && !n.isInMCTSTree
  | some l, some r =>
    let left ← node l
    let right ← node r
    if !left.isInMCTSTree && !right.isInMCTSTree then
      return !left.isTerminal || !right.isTerminal
    else if !left.isInMCTSTree then return !left.isTerminal
    else if !right.isInMCTSTree then return !right.isTerminal
    -- the inner nodes of a switch
    else if n.state.isNone && left.state.isNone && right.state.isNone then
      return false
    else return !n.isForked && !n.isInMCTSTree

/-- One of two children, at random. -/
def pickChild (left right : NodeRef) : ExecM NodeRef := do
  return if (← getInt32 env).toNat % 2 = 0 then left else right

def selectBestChildren (n : PTreeNode) (left right : NodeRef) : ExecM NodeRef := do
  match env.compareUCT n (← node left) (← node right) with
  | .gt => return left
  | .lt => return right
  | .eq => pickChild env left right

/-- The child to go on with. A node without a child to select is its own
successor. -/
def doSelection (n : NodeRef) : ExecM NodeRef := do
  let current ← node n
  match current.left.pointer, current.right.pointer with
  | none, none => return n
  | some l, none =>
    let left ← node l
    return if left.isInMCTSTree || left.isTerminal then l else n
  | none, some r =>
    let right ← node r
    return if right.isInMCTSTree || right.isTerminal then r else n
  | some l, some r =>
    let left ← node l
    let right ← node r
    if left.isInMCTSTree && right.isInMCTSTree then
      selectBestChildren env current l r
    else if left.isInMCTSTree then return l
    else if right.isInMCTSTree then return r
    else if current.state.isNone && left.state.isNone && right.state.isNone then
      throw (.fatal "some thing error (isInMCTSTree is not correctly marked)")
    else return n

/-- Which of two leaves to expand first: the one with more recorded operations
in its branch. -/
def expandBestChildren (left right : NodeRef) : ExecM NodeRef := do
  let leftState ← state (← deref (← node left).state)
  let rightState ← state (← deref (← node right).state)
  let (scoreLeft, scoreRight) := env.getExpansionScore leftState.pc rightState.pc
  if scoreRight < scoreLeft then return left
  else if scoreLeft < scoreRight then return right
  else pickChild env left right

/-- A child that can be expanded. -/
def expandable (child : Option NodeRef) : ExecM (Option NodeRef) := do
  match child with
  | none => return none
  | some c =>
    let node ← node c
    return if !node.isInMCTSTree && node.state.isSome then some c else none

/-- The inner nodes of a switch go into the search tree without being
expanded. -/
def expandSwitch (n l r : NodeRef) : ExecM NodeRef := do
  modifyNode n fun node => { node with isInMCTSTree := true }
  modifyNode l fun node => { node with isInMCTSTree := true }
  modifyNode r fun node => { node with isInMCTSTree := true }
  return n

/-- The end of `doExpansion`, for a node with no child that can be expanded. -/
def expandNone (n : NodeRef) : ExecM NodeRef := do
  let current ← node n
  if !current.isForked && !current.isInMCTSTree then
    return (← state (← deref (← get).current_state)).ptreeNode
  else return n

def doExpansion (n : NodeRef) : ExecM NodeRef := do
  let current ← node n
  match ← expandable current.left.pointer, ← expandable current.right.pointer with
  | some l, some r => expandBestChildren env l r
  | some l, none => return l
  | none, some r => return r
  | none, none =>
    match current.left.pointer, current.right.pointer with
    | some l, some r =>
      let left ← node l
      let right ← node r
      if current.state.isNone && left.state.isNone && right.state.isNone then
        expandSwitch n l r
      else expandNone n
    | _, _ => expandNone n

/-! ## Selection of a state -/

/-- The state is suspended and its copy is added; the reward that is returned is
that of the last simulation that has ended. -/
def doSimulation (n : NodeRef) : ExecM ℚ := do
  match (← node n).state with
  | none => throw (.fatal "Simulation on a NULL ExecutionState!!!")
  | some s =>
    modify fun x => { x with is_simulation_mode := true }
    suspendState s
    startSimulationState s
    modifyNode n fun node => { node with isSimulated := true }
    return (← get).simulationReward

def setHistory (name : String) (entry : SimulationRecord) : ExecM Unit :=
  modify fun x => { x with
    simulatedHistory := Function.update x.simulatedHistory name (some entry) }

/-- The entry of a block, made at the first visit. -/
def visitHistory (name : String) : ExecM SimulationRecord := do
  match (← get).simulatedHistory name with
  | none =>
    setHistory name ⟨0, 0, 0⟩
    return ⟨0, 0, 0⟩
  | some entry =>
    let entry := { entry with visited := entry.visited + 1 }
    setHistory name entry
    return entry

/-- Simulate a node that is expanded for the first time. A state of a block whose
simulations have not paid for some time is terminated instead, and then the
answer is `false`. -/
def simulateOnce (n : NodeRef) (s : StateRef) : ExecM Bool := do
  if env.simulation_opt then
    let name := env.blockName (← state s).pc
    let entry ← visitHistory name
    if entry.repeated < env.simulation_limit then
      let reward ← doSimulation n
      setHistory name (if reward ≤ entry.reward then
          { entry with repeated := entry.repeated + 1 }
        else { entry with repeated := 0, reward := reward })
      return true
    else
      modifyNode n fun node => { node with isSimulated := true }
      terminateState env s
      return false
  else
    let _ ← doSimulation n
    return true

/-- A node of a switch has no state: its children go into the search tree. -/
def enterChildren (n : NodeRef) : ExecM Unit := do
  let current ← node n
  let enter (child : NodeRef) : ExecM Unit :=
    modifyNode child fun node => { node with isInMCTSTree := true }
  match current.left.pointer, current.right.pointer with
  | some l, some r => do
    enter l
    enter r
  | some l, none => enter l
  | none, some r => enter r
  | none, none => throw (.fatal "(unexpected) goes here during expansion?")

/-- What comes of one expansion. -/
inductive Expansion where
  | again
  | return (s : StateRef)
deriving DecidableEq

/-- The part of the loop of `selectState` that expands a node. -/
def expand (n : NodeRef) (s : StateRef) : ExecM Expansion := do
  modifyNode n fun node => { node with isInMCTSTree := true }
  let expanded ← node n
  if expanded.isTerminal then return .return (← deref (← get).current_state)
  else
    modify fun x => { x with current_state := some s }
    if !(← state s).isNormalState then
      if expanded.hasChild then throw (.fatal "Corner case here: should never happen")
      else return .again
    else if env.enable_simulation && !expanded.isSimulated then
      return if ← simulateOnce env n s then .return s else .again
    else return .return s

/-- The loop of `selectState`. -/
def selectLoop : Nat → NodeRef → Option StateRef → ExecM StateRef
  | 0, _, _ => throw .outOfFuel
  | fuel + 1, root, selected_state => do
    let rootNode ← node root
    if rootNode.isTerminal then deref selected_state
    else if !(← hasEligiableChildren rootNode) then
      let selected_node ← doSelection env root
      let selected ← node selected_node
      if !selected.hasChild then deref selected.state
      else selectLoop fuel selected_node selected_state
    else
      let expanded_node ← doExpansion env root
      match (← node expanded_node).state with
      | none =>
        enterChildren expanded_node
        selectLoop fuel root none
      | some s =>
        match ← expand env expanded_node s with
        | .return s => return s
        | .again => selectLoop fuel root (some s)

/-- `MCTSSearcher::selectState`. -/
def selectMCTS (fuel : Nat) : ExecM StateRef := do
  let x ← get
  match x.children with
  | [] => throw (.fatal "No children is avaiable now, so exit ...")
  | [s] => return s
  | _ =>
    match x.processTree.root.pointer with
    | none => throw (.assertion "node != 0")
    | some root => selectLoop env fuel root none

/-! ## The random-path searcher -/

/-- A pointer to a node that belongs to the searcher. -/
def isOurNodeValid (idBitMask : BitVec 3) (ptr : PTreeNodePtr) : Bool :=
  ptr.pointer.isSome && ptr.int &&& idBitMask ≠ 0

/-- The walk of `RandomPathSearcher::selectState`, with the bits of the last
random number that are left. -/
def selectPath (idBitMask : BitVec 3) : Nat → List Bool → NodeRef → ExecM StateRef
  | 0, _, _ => throw .outOfFuel
  | fuel + 1, bits, n => do
    let current ← node n
    match current.state with
    | some s => return s
    | none =>
      match (if isOurNodeValid idBitMask current.left then current.left.pointer
          else none),
        (if isOurNodeValid idBitMask current.right then current.right.pointer
          else none) with
      | none, none => throw (.assertion "Both left and right nodes invalid")
      | none, some r => selectPath idBitMask fuel bits r
      | some l, none => selectPath idBitMask fuel bits l
      | some l, some r =>
        match bits with
        | flip :: bits => selectPath idBitMask fuel bits (if flip then l else r)
        | [] =>
          let flips ← getInt32 env
          selectPath idBitMask fuel
            ((List.range 31).reverse.map flips.getLsbD)
            (if flips.getLsbD 31 then l else r)

def selectRandomPath (idBitMask : BitVec 3) (fuel : Nat) : ExecM StateRef := do
  let root := (← get).processTree.root
  if root.int &&& idBitMask = 0 then
    throw (.assertion "Root should belong to the searcher")
  else
    match root.pointer with
    | none => throw (.undefined "access through a null pointer")
    | some n => selectPath env idBitMask fuel [] n

/-- Mark the pointers on the way from a node to the root, up to one that is. -/
def markPath (idBitMask : BitVec 3) : Nat → PTree → NodeRef → Except Abort PTree
  | 0, _, _ => throw .outOfFuel
  | fuel + 1, t, n => do
    let ptr ← t.childPtr n
    if isOurNodeValid idBitMask ptr then return t
    else
      let t ← t.setChildInt n (ptr.int ||| idBitMask)
      match (← t.node n).parent with
      | none => return t
      | some p => markPath idBitMask fuel t p

/-- Take the marks away from a node without marked children and from those above
it. -/
def unmarkPath (idBitMask : BitVec 3) : Nat → PTree → NodeRef → Except Abort PTree
  | 0, _, _ => throw .outOfFuel
  | fuel + 1, t, n => do
    let node ← t.node n
    if isOurNodeValid idBitMask node.left || isOurNodeValid idBitMask node.right then
      return t
    else
      let ptr ← t.childPtr n
      if !isOurNodeValid idBitMask ptr then
        throw (.assertion "Removing pTree child not ours")
      else
        let t ← t.setChildInt n (ptr.int &&& ~~~idBitMask)
        match node.parent with
        | none => return t
        | some p => unmarkPath idBitMask fuel t p

def updatePath (walk : Nat → PTree → NodeRef → Except Abort PTree) (es : StateRef) :
    ExecM Unit := do
  let state ← state es
  let t := (← get).processTree
  let t ← walk (t.nextNode + 1) t state.ptreeNode
  modify fun x => { x with processTree := t }

def updateRandomPath (idBitMask : BitVec 3) (addedStates removedStates : List StateRef) :
    ExecM Unit := do
  addedStates.forM (updatePath (markPath idBitMask))
  removedStates.forM (updatePath (unmarkPath idBitMask))

/-- `RandomPathSearcher::empty`. -/
def emptyRandomPath (idBitMask : BitVec 3) (x : Executor) : Bool :=
  !isOurNodeValid idBitMask x.processTree.root

/-! ## Updates -/

/-- The states of one kind. -/
def ofType (type : StateType) : List StateRef → ExecM (List StateRef)
  | [] => return []
  | es :: rest => do
    let state ← state es
    let rest ← ofType type rest
    return if state.type = type then es :: rest else rest

def updateSimulation (addedStates removedStates : List StateRef) : ExecM Unit := do
  match (← get).simulationSearcher with
  | .none => return ()
  | .dfs states =>
    let simulationStates ← ofType .simulation removedStates
    let states ← DFSSearcher.update (· ∈ simulationStates) states
      ⟨none, addedStates, removedStates⟩
    modify fun x => { x with simulationSearcher := .dfs states }
  | .randomPath idBitMask => updateRandomPath idBitMask addedStates removedStates

/-- The loop of `MCTSSearcher::update` over the added states. The loop over the
tags of the process tree writes back what it reads. -/
def addChildren (current : Option StateRef) (addedStates : List StateRef) :
    List StateRef → ExecM Unit
  | [] => return ()
  | es :: rest => do
    let state ← state es
    modify fun x => { x with
      current_state :=
        if addedStates.length = 1 && state.isNormalState && current.isNone then
          some es
        else x.current_state
      children := x.children ++ [es] }
    addChildren current addedStates rest

def removeChildren : List StateRef → ExecM Unit
  | [] => return ()
  | es :: rest => do
    if (← get).children = [] then throw (.undefined "front of an empty vector")
    else if es ∈ (← get).children then
      modify fun x => { x with children := x.children.erase es }
      removeChildren rest
    else throw (.assertion "invalid state removed")

/-- `MCTSSearcher::update`. -/
def updateMCTS (current : Option StateRef) (addedStates removedStates : List StateRef) :
    ExecM Unit := do
  leaveTree current
  modify fun x => { x with current_state := current }
  addChildren current addedStates addedStates
  removeChildren removedStates
where
  leaveTree : Option StateRef → ExecM Unit
    | none => return ()
    | some s => do
      modifyNode (← state s).ptreeNode fun node => { node with isInMCTSTree := false }

/-- Update the searcher that the executor has: the split searcher if there is a
simulation searcher. -/
def updateSearcher (current : Option StateRef)
    (addedStates removedStates : List StateRef) : ExecM Unit := do
  match (← get).simulationSearcher with
  | .none => updateMCTS current addedStates removedStates
  | _ =>
    let addedOriginating ← ofType .normal addedStates
    let addedSimulation ← ofType .simulation addedStates
    let removedOriginating ← ofType .normal removedStates
    let removedSimulation ← ofType .simulation removedStates
    updateMCTS (← currentOriginating current) addedOriginating removedOriginating
    updateSimulation addedSimulation removedSimulation
where
  currentOriginating : Option StateRef → ExecM (Option StateRef)
    | none => return none
    | some s => do return if (← state s).isSimulationState then none else some s

/-- `SplittedSearcher::selectState`, or that of the MCTS searcher alone. -/
def selectState (fuel : Nat) : ExecM StateRef := do
  let x ← get
  match x.simulationSearcher, x.is_simulation_mode with
  | .dfs states, true => deref states.getLast?
  | .randomPath idBitMask, true => selectRandomPath env idBitMask fuel
  | _, _ => selectMCTS env fuel

end VitalSE.Mcts.Executor
