import VitalSE.Core.AddressSpace

/-!
# The executor: forking and memory operations

States are values here. What they share lives in the `World`: the state of the
solver, the object states, which address spaces refer to by number, and the
counters and limits of the executor. A function of the source that changes the
state it is given returns the changed one.

Seeds, the process tree and the statistics other than the number of forks are
left out.
-/

namespace VitalSE

inductive StateTerminationType where
  | solver
  | ptr
  | readOnly
  | maxDepth
deriving DecidableEq

structure ExecutionState where
  id : Nat
  isSimulationState : Bool
  pc : Nat
  prevPC : Nat
  /-- The registers of each stack frame, the innermost frame first. -/
  stack : List (Nat → Option Expr)
  depth : Nat
  addressSpace : AddressSpace
  constraints : List Expr
  pathOS : List Bool
  symPathOS : List Bool
  coveredNew : Bool
  coveredLines : List (String × Nat)
  forkDisabled : Bool
  stack_ne : stack ≠ []

/-- The destination register and the width of an instruction. -/
structure KInstruction where
  dest : Nat
  width : Nat

/-- What a memory operation does at its address. -/
inductive MemoryAccess where
  | read (target : KInstruction)
  | write (value : Expr)

structure Termination where
  state : ExecutionState
  reason : StateTerminationType
  message : String

structure World (S : Type) where
  solver : S
  heap : Nat → ObjectState
  /-- The first free reference. -/
  nextObject : Nat
  constArrays : Nat
  nextID : Nat
  forks : Nat
  inhibitedForks : Nat
  atMemoryLimit : Bool
  /-- The branches still to be replayed. -/
  replayPath : Option (List Bool)
  theRNG : Nat → Bool
  is_simulation_mode : Bool
  terminated : List Termination

abbrev ExecM (S : Type) := StateT (World S) (Except Abort)

structure Executor (S : Type) where
  solver : TimingSolver S
  rewriteEqualities : Bool
  ctx : Context
  simplifySymIndices : Bool
  maxSymArraySize : Nat
  /-- The array optimizer: the identity unless it is enabled. -/
  optimizeExpr : Expr → Expr
  maxDepth : Nat
  maxForks : Option Nat
  maxMemoryInhibit : Bool
  inhibitForking : Bool
  replayKTest : Bool
  pathWriter : Bool
  symPathWriter : Bool
  /-- Whether one of the `MaxStatic*Pct` limits is reached. -/
  reachedMaxStaticPct : ExecutionState → Bool
  pageSize : Nat
  isDeterministic : Bool
  /-- The base address of the allocated or quarantined object that the
  allocator has at these bytes. -/
  locationInfo : ExecutionState → Nat → Nat → Option Nat

namespace ExecutionState

/-- `branch`: the state itself and its copy. -/
def branch (s : ExecutionState) (newID : Nat) : ExecutionState × ExecutionState :=
  let s := { s with
    depth := s.depth + 1
    addressSpace := s.addressSpace.copy }
  (s, { s with id := newID, coveredNew := false, coveredLines := [] })

end ExecutionState

namespace Executor

variable {S : Type} (ex : Executor S) (state current : ExecutionState)

def liftSolver {α : Type} (m : SolverM S α) : ExecM S α := do
  let w ← get
  let (a, s) ← m w.solver
  set { w with solver := s }
  return a

def terminateState (reason : StateTerminationType) (message : String) : ExecM S Unit :=
  modify fun w => { w with
    terminated := w.terminated ++ [⟨state, reason, message⟩] }

def addConstraint (condition : Expr) : ExecM S ExecutionState :=
  match condition with
  | .constant c =>
    if ConstantExpr.isTrue c then return state
    else throw (.fatal "attempt to add invalid constraint")
  | _ => do
    let constraints ← liftM (ConstraintManager.addConstraintBounded
      ex.solver.constArrayOpt ex.rewriteEqualities state.constraints
      condition)
    return { state with constraints := constraints }

def addNegation (condition : Expr) : ExecM S ExecutionState :=
  ex.addConstraint state (condition.createIsZero ex.solver.constArrayOpt)

def branchingPermitted : ExecM S Bool := do
  let w ← get
  return !((ex.maxMemoryInhibit && w.atMemoryLimit) || state.forkDisabled ||
    ex.inhibitForking ||
    match ex.maxForks with
    | none => false
    | some max => decide (max ≤ w.forks))

/-- Once a limit is reached, conditions are concretized. -/
def maxStaticPctChecks (condition : Expr) : ExecM S (ExecutionState × Expr) := do
  if condition.isConstant then return (current, condition)
  else if ex.reachedMaxStaticPct current then
    match ← liftSolver (ex.solver.getValue current.constraints condition) with
    | none => throw (.assertion "FIXME: Unhandled solver failure")
    | some value =>
      let current ← ex.addConstraint current
        (EqExpr.create ex.solver.constArrayOpt (.constant value) condition)
      return (current, .constant value)
  else return (current, condition)

/-- Take one of two feasible branches. -/
def takeBranch (condition : Expr) (branch : Bool) :
    ExecM S (ExecutionState × Validity) := do
  if branch then return (← ex.addConstraint current condition, .true)
  else return (← ex.addNegation current condition, .false)

/-- Replay a recorded branch, or pick one when forking is not permitted. -/
def chooseBranch (condition : Expr) (isInternal : Bool) (res : Validity) :
    ExecM S (ExecutionState × Validity) := do
  let w ← get
  match w.replayPath, isInternal with
  | some [], false =>
    throw (.assertion "ran out of branches in replay path mode")
  | some (branch :: rest), false =>
    set { w with replayPath := some rest }
    match res, branch with
    | .true, false | .false, true =>
      throw (.assertion "hit invalid branch in replay path mode")
    | .true, true | .false, false => return (current, res)
    | .unknown, _ => ex.takeBranch current condition branch
  | _, _ =>
    if res = .unknown then
      if ex.replayKTest then
        throw (.assertion "in replay mode, only one branch can be true.")
      else if ← ex.branchingPermitted current then return (current, res)
      else
        let branch := w.theRNG 0
        set { w with
          theRNG := fun n => w.theRNG (n + 1)
          inhibitedForks := w.inhibitedForks + 1 }
        ex.takeBranch current condition branch
    else return (current, res)

/-- Record a branch in the path files. -/
def writePath (isInternal branch : Bool) : ExecutionState :=
  if ex.pathWriter && !isInternal then
    { state with pathOS := state.pathOS ++ [branch] }
  else state

def writeSymPath (isInternal branch : Bool) : ExecutionState :=
  if ex.symPathWriter && !isInternal then
    { state with symPathOS := state.symPathOS ++ [branch] }
  else state

/-- The end of `fork`, when both branches are feasible. -/
def forkBoth (condition : Expr) (isInternal : Bool) :
    ExecM S (Option ExecutionState × Option ExecutionState) := do
  let w ← get
  if current.isSimulationState && w.is_simulation_mode then
    throw (.fatal "fork here?")
  else
    set { w with
      nextID := w.nextID + 1
      forks := if current.isSimulationState then w.forks else w.forks + 1 }
    let (trueState, falseState) := current.branch w.nextID
    let trueState := ex.writeSymPath (ex.writePath trueState isInternal true)
      isInternal true
    let falseState := ex.writeSymPath (ex.writePath falseState isInternal false)
      isInternal false
    let trueState ← ex.addConstraint trueState condition
    let falseState ← ex.addNegation falseState condition
    if ex.maxDepth ≠ 0 ∧ ex.maxDepth ≤ trueState.depth then
      terminateState trueState .maxDepth "max-depth exceeded."
      terminateState falseState .maxDepth "max-depth exceeded."
      return (none, none)
    else return (some trueState, some falseState)

/-- The state in which the condition holds, and that in which it does not. -/
def fork (condition : Expr) (isInternal : Bool) :
    ExecM S (Option ExecutionState × Option ExecutionState) := do
  let (current, condition) ← ex.maxStaticPctChecks current condition
  match ← liftSolver (ex.solver.evaluate current.constraints condition) with
  | none =>
    terminateState { current with pc := current.prevPC } .solver
      "Query timed out (fork)."
    return (none, none)
  | some res =>
    let (current, res) ← ex.chooseBranch current condition isInternal res
    match res with
    | .true => return (some (ex.writePath current isInternal true), none)
    | .false => return (none, some (ex.writePath current isInternal false))
    | .unknown => ex.forkBoth current condition isInternal

/-! ## Memory operations -/

def bindLocal (target : KInstruction) (state : ExecutionState)
    (value : Expr) : ExecutionState :=
  { state with
    stack := state.stack.modifyHead
      (Function.update · target.dest (some value))
    stack_ne := by simpa using state.stack_ne }

/-- Concretize an expression to one of its values. -/
def toConstant (e : Expr) : ExecM S (ExecutionState × APInt) := do
  let e ← liftM (ConstraintManager.simplifyExprBounded ex.solver.constArrayOpt
    state.constraints e)
  match e with
  | .constant c => return (state, c)
  | _ =>
    match ← liftSolver (ex.solver.getValue state.constraints e) with
    | none => throw (.assertion "FIXME: Unhandled solver failure")
    | some value =>
      let state ← ex.addConstraint state
        (EqExpr.create ex.solver.constArrayOpt e (.constant value))
      return (state, value)

/-- A reference to an object state that this state alone uses: its own one, or
a copy of a shared one. -/
def getWriteable (mo : MemoryObject) (os : Nat) : ExecM S (ExecutionState × Nat) := do
  let w ← get
  let ((as, os), h) ← liftM (state.addressSpace.getWriteable mo os ⟨w.heap, w.nextObject⟩)
  set { w with heap := h.heap, nextObject := h.nextObject }
  return ({ state with addressSpace := as }, os)

/-- Read from an object state, which may change its caches. -/
def readObject (os : Nat) (offset : Expr) (width : Nat) : ExecM S Expr := do
  let w ← get
  let (result, obj, constArrays) ← liftM ((ObjectState.read
    ex.solver.constArrayOpt ex.ctx offset width) (w.heap os, w.constArrays))
  set { w with
    heap := Function.update w.heap os obj
    constArrays := constArrays }
  return result

def writeObject (os : Nat) (offset value : Expr) : ExecM S Unit := do
  let w ← get
  let obj ← liftM ((w.heap os).write ex.solver.constArrayOpt ex.ctx offset value)
  set { w with heap := Function.update w.heap os obj }

/-- The access itself, once it is known to be in the bounds of an object. -/
def accessObject (op : ObjectPair) (offset : Expr)
    (access : MemoryAccess) : ExecM S (Option ExecutionState) := do
  match access with
  | .write value =>
    if ((← get).heap op.2).readOnly then
      terminateState state .readOnly "memory error: object read only"
      return none
    else
      let (state, os) ← getWriteable state op.1 op.2
      ex.writeObject os offset value
      return some state
  | .read target =>
    let result ← ex.readObject op.2 offset target.width
    return some (bindLocal target state result)

def accessWidth : MemoryAccess → Nat
  | .read target => target.width
  | .write value => value.getWidth

def accessBytes (access : MemoryAccess) : Nat :=
  getMinBytesForWidth (accessWidth access)

def simplifyIndices (address : Expr)
    (access : MemoryAccess) : ExecM S (Expr × MemoryAccess) := do
  if ex.simplifySymIndices then
    let simplify := ConstraintManager.simplifyExprBounded
      ex.solver.constArrayOpt state.constraints
    let address ← liftM (simplify address)
    match access with
    | .read _ => return (address, access)
    | .write value => return (address, .write (← liftM (simplify value)))
  else return (address, access)

/-- The single in-bounds resolution: the states it ends with, or the state and
the address to go on with. -/
def fastPath (address : Expr) (access : MemoryAccess) (op : ObjectPair) :
    ExecM S (List ExecutionState ⊕ ExecutionState × Expr) := do
  let (state, address) ←
    if ex.maxSymArraySize ≠ 0 ∧ ex.maxSymArraySize ≤ op.1.size then do
      let (state, c) ← ex.toConstant state address
      pure (state, Expr.constant c)
    else pure (state, address)
  let offset := op.1.getOffsetExpr ex.solver.constArrayOpt ex.ctx address
  let check := ex.optimizeExpr (op.1.getBoundsCheckOffsetBytes
    ex.solver.constArrayOpt ex.ctx offset (accessBytes access))
  match ← liftSolver (ex.solver.mustBeTrue state.constraints check) with
  | none =>
    terminateState { state with pc := state.prevPC } .solver
      "Query timed out (bounds check)."
    return .inl []
  | some true => return .inl (← ex.accessObject state op offset access).toList
  | some false => return .inr (state, address)

/-- Fork on each object that the address may point to: the states in which the
access was made, and the one in which it is in none of the objects. -/
def boundLoop (address : Expr) (access : MemoryAccess) : List ObjectPair → ExecutionState →
      ExecM S (List ExecutionState × Option ExecutionState)
  | [], unbound => return ([], some unbound)
  | op :: rest, unbound => do
    let inBounds := op.1.getBoundsCheckPointerBytes ex.solver.constArrayOpt
      ex.ctx address (accessBytes access)
    let (bound, unbound) ← ex.fork unbound inBounds true
    let states ← match bound with
      | none => pure []
      | some bound => do
        let offset := op.1.getOffsetExpr ex.solver.constArrayOpt ex.ctx
          address
        pure (← ex.accessObject bound op offset access).toList
    match unbound with
    | none => return (states, none)
    | some unbound =>
      let (states', unbound) ← boundLoop address access rest unbound
      return (states ++ states', unbound)

/-- The message for an access that is in none of the objects. -/
def unboundMessage (unbound : ExecutionState) (address : Expr)
    (access : MemoryAccess) : String :=
  match address with
  | .constant c =>
    if c.toNat < ex.pageSize then "memory error: null page access"
    else if ex.isDeterministic then
      match ex.locationInfo unbound c.toNat (accessBytes access) with
      | some base =>
        if (unbound.addressSpace.resolveConstant base).isNone then
          "memory error: use after free"
        else "memory error: out of bound pointer"
      | none => "memory error: out of bound pointer"
    else "memory error: out of bound pointer"
  | _ => "memory error: out of bound pointer"

/-- The error path: no resolution, several, or one out of bounds. -/
def slowPath (address : Expr) (access : MemoryAccess) : ExecM S (List ExecutionState) := do
  let address := ex.optimizeExpr address
  let (incomplete, rl) ← liftSolver (state.addressSpace.resolve ex.ctx
    ex.solver state.constraints address 0)
  let (states, unbound) ← ex.boundLoop address access rl state
  match unbound with
  | none => return states
  | some unbound =>
    if incomplete then
      terminateState unbound .solver "Query timed out (resolve)."
    else
      terminateState unbound .ptr
        (ex.unboundMessage unbound address access)
    return states

/-- `executeMemoryOperation`: the states that go on. -/
def executeMemoryOperation (address : Expr)
    (access : MemoryAccess) : ExecM S (List ExecutionState) := do
  let (address, access) ← ex.simplifyIndices state address access
  let address := ex.optimizeExpr address
  let (state, address, op) ←
    match ← liftSolver (state.addressSpace.resolveOne ex.ctx ex.solver
        state.constraints address) with
    | some op => pure (state, address, op)
    | none => do
      let (state, c) ← ex.toConstant state address
      pure (state, Expr.constant c,
        state.addressSpace.resolveConstant c.toNat)
  match op with
  | none => ex.slowPath state address access
  | some op =>
    match ← ex.fastPath state address access op with
    | .inl states => return states
    | .inr (state, address) => ex.slowPath state address access

/-! ## Test cases -/

/-- Add the preferences that do not contradict the constraints, up to the first
failure of the solver. They are returned with the constraints. -/
def addPreferences : List Expr → List Expr → SolverM S (List Expr × List Expr)
  | [], constraints => return (constraints, [])
  | pi :: rest, constraints => do
    match ← ex.solver.mustBeTrue constraints (pi.createIsZero ex.solver.constArrayOpt) with
    | none => return (constraints, [])
    | some true => addPreferences rest constraints
    | some false =>
      let constraints ← liftM (ConstraintManager.addConstraintBounded
        ex.solver.constArrayOpt ex.rewriteEqualities constraints pi)
      let (constraints, kept) ← addPreferences rest constraints
      return (constraints, pi :: kept)

/-- The preferences that were kept, and the bytes of the symbolic objects unless the
solver has none. -/
def getSymbolicSolution (constraints cexPreferences : List Expr)
    (symbolics : List (String × Array)) :
    SolverM S (List Expr × Option (List (String × List (BitVec 8)))) := do
  let (extended, kept) ← ex.addPreferences cexPreferences constraints
  let values ← ex.solver.getInitialValues extended (symbolics.map Prod.snd)
  return (kept, values.map fun values => (symbolics.map Prod.fst).zip values)

end Executor

end VitalSE
