import VitalSE.Core.WrappedSearchers

/-!
# Merging states

A state that reaches an open merge point gets a merge handler, which it shares
with the states that are forked from it. A state that reaches a close merge point
waits there for the other ones: the merging searcher takes it out of the searcher
that it wraps. The handler lets its states go when no state refers to it any more.

`Merging` is what the handlers, the merging searcher and the executor share. The
states are those that the executor lists; forked and terminated states are reported
with the next `updateStates`. Merging as such is left open: whether a state can be
merged into another one is an argument of `addClosedState`.
-/

namespace VitalSE.Searchers

open Mcts (SearcherUpdate)

abbrev HandlerRef := Nat

/-- An instruction of the program, by number. -/
abbrev MergePoint := Nat

structure MergeHandler where
  refCount : Nat
  openInstruction : Nat
  closedMean : ℚ
  closedStateCount : Nat
  openStates : List StateRef
  /-- The states at each close merge point. -/
  reachedCloseMerge : List (MergePoint × List StateRef)

namespace MergeHandler

def getMean (m : MergeHandler) : ℚ := if m.closedStateCount = 0 then 0 else m.closedMean

def hasMergedStates (m : MergeHandler) : Bool := !m.reachedCloseMerge.isEmpty

/-- In an unsigned integer of 32 bits. -/
def getInstructionDistance (m : MergeHandler) (steppedInstructions : Nat) : Nat :=
  (((steppedInstructions : Int) - m.openInstruction) % 2 ^ 32).toNat

end MergeHandler

/-- The element at the end is put in the place of `a`. -/
def swapPop [DecidableEq α] (a : α) (l : List α) : Option (List α) :=
  match l.idxOf? a, l.getLast? with
  | some i, some back => some (l.set i back).dropLast
  | _, _ => none

/-- The states at all close merge points. -/
def MergeHandler.waiting (m : MergeHandler) : List StateRef :=
  m.reachedCloseMerge.flatMap Prod.snd

structure MergingSearcher (σ : Type) where
  baseSearcher : σ
  pausedStates : List StateRef
  mergeGroups : List HandlerRef
  inCloseMerge : Finset StateRef

namespace MergingSearcher

variable {σ : Type} (base : Searcher σ) (now : Now)

def pauseState (y : MergingSearcher σ) (state : StateRef) :
    Except Abort (MergingSearcher σ) := do
  if state ∈ y.pausedStates then throw (.assertion "state is paused")
  else
    let baseSearcher ← base.update now ⟨none, [], [state]⟩ y.baseSearcher
    return { y with
      pausedStates := y.pausedStates ++ [state], baseSearcher := baseSearcher }

def continueState (y : MergingSearcher σ) (state : StateRef) :
    Except Abort (MergingSearcher σ) := do
  if state ∈ y.pausedStates then
    let baseSearcher ← base.update now ⟨none, [state], []⟩ y.baseSearcher
    return { y with
      pausedStates := y.pausedStates.erase state, baseSearcher := baseSearcher }
  else throw (.assertion "state is not paused")

/-- Nothing is passed on if the current state is paused. -/
def update (u : SearcherUpdate) (y : MergingSearcher σ) :
    Except Abort (MergingSearcher σ) := do
  if ∃ s ∈ u.current, s ∈ y.pausedStates then return y
  else
    let baseSearcher ← base.update now u y.baseSearcher
    return { y with baseSearcher := baseSearcher }

def selectBase (y : MergingSearcher σ) : Except Abort (StateRef × MergingSearcher σ) := do
  let (s, baseSearcher) ← base.selectState now y.baseSearcher
  return (s, { y with baseSearcher := baseSearcher })

/-- The body of the loops of `releaseStates`. -/
def release (y : MergingSearcher σ) (curState : StateRef) :
    Except Abort (MergingSearcher σ) := do
  let y ← y.continueState base now curState
  return { y with inCloseMerge := y.inCloseMerge.erase curState }

end MergingSearcher

structure Merging (σ : Type) where
  mergingSearcher : MergingSearcher σ
  mergeHandlers : HandlerRef → Option MergeHandler
  nextHandler : HandlerRef
  openMergeStack : StateRef → List HandlerRef
  steppedInstructions : StateRef → Nat
  states : Finset StateRef
  addedStates : List StateRef
  removedStates : List StateRef
  /-- The states that `updateStates` has reported as removed and is going to delete. -/
  deletedStates : List StateRef
  /-- The state that has been selected and not been reported yet. -/
  current : Option StateRef

abbrev MergeM (σ : Type) := StateT (Merging σ) (Except Abort)

section

variable {σ : Type} (base : Searcher σ) (now : Now)

/-- A call of the merging searcher. -/
def onSearcher (f : MergingSearcher σ → Except Abort (MergingSearcher σ)) :
    MergeM σ Unit := do
  let y ← f (← get).mergingSearcher
  modify fun x => { x with mergingSearcher := y }

def modifySearcher (f : MergingSearcher σ → MergingSearcher σ) : MergeM σ Unit :=
  modify fun x => { x with mergingSearcher := f x.mergingSearcher }

/-! ## Merge handlers -/

def mergeHandler (h : HandlerRef) : MergeM σ MergeHandler := do
  match (← get).mergeHandlers h with
  | some m => return m
  | none => throw (.undefined "access to a deleted merge handler")

def setMergeHandler (h : HandlerRef) (m : Option MergeHandler) : MergeM σ Unit :=
  modify fun x => { x with mergeHandlers := Function.update x.mergeHandlers h m }

def addOpenState (es : StateRef) (h : HandlerRef) : MergeM σ Unit := do
  let m ← mergeHandler h
  setMergeHandler h (some { m with openStates := m.openStates ++ [es] })

def removeOpenState (es : StateRef) (h : HandlerRef) : MergeM σ Unit := do
  let m ← mergeHandler h
  match swapPop es m.openStates with
  | some openStates => setMergeHandler h (some { m with openStates := openStates })
  | none => throw (.assertion "state is not open")

def releaseStates (h : HandlerRef) : MergeM σ Unit := do
  let m ← mergeHandler h
  onSearcher fun y => m.waiting.foldlM (MergingSearcher.release base now) y
  setMergeHandler h (some { m with reachedCloseMerge := [] })

/-- The destructor of a merge handler. -/
def deleteHandler (h : HandlerRef) : MergeM σ Unit := do
  match swapPop h (← get).mergingSearcher.mergeGroups with
  | some mergeGroups =>
    modifySearcher fun y => { y with mergeGroups := mergeGroups }
    releaseStates base now h
    setMergeHandler h none
  | none =>
    throw (.assertion "All MergeHandlers should be registered in mergeGroups")

/-- A reference to the handler goes away. -/
def decRef (h : HandlerRef) : MergeM σ Unit := do
  let m ← mergeHandler h
  if m.refCount = 1 then deleteHandler base now h
  else setMergeHandler h (some { m with refCount := m.refCount - 1 })

def incRef (h : HandlerRef) : MergeM σ Unit := do
  let m ← mergeHandler h
  setMergeHandler h (some { m with refCount := m.refCount + 1 })

/-! ## States -/

def setOpenMergeStack (s : StateRef) (stack : List HandlerRef) : MergeM σ Unit :=
  modify fun x => { x with openMergeStack := Function.update x.openMergeStack s stack }

/-- The destructor of a state. -/
def deleteState (s : StateRef) : MergeM σ Unit := do
  let stack := (← get).openMergeStack s
  stack.forM (removeOpenState s)
  setOpenMergeStack s []
  stack.forM (decRef base now)

def terminateState (s : StateRef) : MergeM σ Unit := do
  if s ∈ (← get).addedStates then
    modify fun x => { x with addedStates := x.addedStates.erase s }
    deleteState base now s
  else modify fun x => { x with removedStates := x.removedStates ++ [s] }

/-- `ExecutionState::branch`: the state `s` is copied to the new state `t`. -/
def branch (s t : StateRef) : MergeM σ Unit := do
  let stack := (← get).openMergeStack s
  modify fun x => { x with
    steppedInstructions :=
      Function.update x.steppedInstructions t (x.steppedInstructions s) }
  setOpenMergeStack t stack
  stack.forM incRef
  stack.forM (addOpenState t)
  modify fun x => { x with addedStates := x.addedStates ++ [t] }

/-! ## Merge points -/

def handleOpenMerge (s : StateRef) : MergeM σ Unit := do
  let x ← get
  let h := x.nextHandler
  modify fun x => { x with nextHandler := h + 1 }
  setMergeHandler h (some
    { refCount := 1
      openInstruction := x.steppedInstructions s
      closedMean := 0
      closedStateCount := 0
      openStates := [s]
      reachedCloseMerge := [] })
  modifySearcher fun y => { y with mergeGroups := y.mergeGroups ++ [h] }
  setOpenMergeStack s (x.openMergeStack s ++ [h])

/-- The states at the merge point `mp`, if one has reached it. -/
def MergeHandler.closePoint (m : MergeHandler) (mp : MergePoint) : Option (List StateRef) :=
  m.reachedCloseMerge.lookup mp

/-- The state `es` is put at the end of those at the merge point `mp`. -/
def MergeHandler.reach (m : MergeHandler) (mp : MergePoint) (es : StateRef) : MergeHandler :=
  match m.closePoint mp with
  | none => { m with reachedCloseMerge := m.reachedCloseMerge ++ [(mp, [es])] }
  | some _ => { m with reachedCloseMerge := m.reachedCloseMerge.map fun group =>
    if group.1 = mp then (group.1, group.2 ++ [es]) else group }

/-- `merges mState` says whether the state can be merged into `mState`. -/
def addClosedState (merges : StateRef → Bool) (h : HandlerRef) (es : StateRef)
    (mp : MergePoint) : MergeM σ Unit := do
  let m ← mergeHandler h
  let distance := m.getInstructionDistance ((← get).steppedInstructions es)
  setMergeHandler h (some { m with
    closedStateCount := m.closedStateCount + 1
    closedMean := m.closedMean + ((distance : ℚ) - m.closedMean) / (m.closedStateCount + 1) })
  removeOpenState es h
  if ((m.closePoint mp).getD []).any merges then
    terminateState base now es
    modifySearcher fun y => { y with inCloseMerge := y.inCloseMerge.erase es }
  else
    let m ← mergeHandler h
    setMergeHandler h (some (m.reach mp es))
    onSearcher fun y => y.pauseState base now es

def handleCloseMerge (merges : StateRef → Bool) (s : StateRef) (mp : MergePoint) :
    MergeM σ Unit := do
  let x ← get
  match (x.openMergeStack s).getLast? with
  -- A warning: there is a close without a preceding open.
  | none => return ()
  | some h =>
    if s ∈ x.mergingSearcher.inCloseMerge then
      throw (.assertion "State cannot run into close_merge while being closed")
    else
      modifySearcher fun y => { y with inCloseMerge := insert s y.inCloseMerge }
      addClosedState base now merges h s mp
      setOpenMergeStack s (x.openMergeStack s).dropLast
      decRef base now h

/-! ## Selection -/

/-- An open state that is worth waiting for. -/
def getPrioritizeState (x : Merging σ) (m : MergeHandler) : Option StateRef :=
  m.openStates.find? fun s => s ∉ x.mergingSearcher.inCloseMerge &&
    decide ((m.getInstructionDistance (x.steppedInstructions s) : ℚ) < 2 * m.getMean)

def selectBase : MergeM σ StateRef := do
  let (s, y) ← (← get).mergingSearcher.selectBase base now
  modify fun x => { x with mergingSearcher := y }
  return s

/-- The loop of `selectState` over the merge handlers. -/
def prioritize : List HandlerRef → MergeM σ StateRef
  | [] => selectBase base now
  | h :: rest => do
    let m ← mergeHandler h
    if m.hasMergedStates then
      match getPrioritizeState (← get) m with
      | some es => return es
      | none =>
        releaseStates base now h
        prioritize rest
    else prioritize rest

def selectState (useIncompleteMerge : Bool) : MergeM σ StateRef := do
  let x ← get
  if base.empty x.mergingSearcher.baseSearcher then
    throw (.assertion "base searcher is empty")
  else if useIncompleteMerge then prioritize base now x.mergingSearcher.mergeGroups
  else selectBase base now

/-! ## The executor -/

/-- The report of `updateStates`. -/
def updateStates : MergeM σ Unit := do
  let x ← get
  onSearcher (MergingSearcher.update base now ⟨x.current, x.addedStates, x.removedStates⟩)
  modify fun x => { x with
    states := (x.states ∪ x.addedStates.toFinset) \ x.removedStates.toFinset
    addedStates := []
    removedStates := []
    deletedStates := x.removedStates
    current := none }

/-- The end of `updateStates`, where the removed states are deleted. -/
def deleteStates : List StateRef → MergeM σ Unit
  | [] => return ()
  | s :: rest => do
    modify fun x => { x with deletedStates := rest }
    deleteState base now s
    deleteStates rest

end

end VitalSE.Searchers
