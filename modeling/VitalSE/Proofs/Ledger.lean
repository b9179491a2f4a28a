import VitalSE.Core.Exploration

/-!
# The ledger of the executor

What is said of states, their lists and their simulation does not depend on the
process tree, on the program or on the order in which the searchers keep their
states. `ledger` is the part of the executor that it does depend on, and most of
the code leaves it as it is: all of the searchers but the start of a simulation,
and everything an instruction does except for making, terminating and stepping
states. For the rest there is one lemma each about what it does to the ledger.
-/

namespace VitalSE

variable {fuel : Nat} {idBitMask : BitVec 3} {x : Mcts.Executor} {st : Mcts.ExecutionState}
  {name : String}

namespace Mcts

/-- What is fixed when a state is made, and whether it is suspended. -/
structure Kind where
  id : Nat
  type : StateType
  suspended : Bool

/-- What the ledger has of a state. -/
def ExecutionState.kind (s : ExecutionState) : Kind := ⟨s.id, s.type, s.suspendStatus⟩

/-- The part of the executor that states are made and removed in. -/
structure Ledger where
  kinds : StateRef → Option Kind
  nextState : StateRef
  nextID : Nat
  states : List StateRef
  addedStates : List StateRef
  removedStates : List StateRef
  suspendedStates : List StateRef
  resumedStates : List StateRef
  is_simulation_mode : Bool
  inhibitForking : Bool
  haltExecution : Bool
  paths : Nat
  trace : List Event

namespace Executor

variable {l n r : NodeRef} {added removed : List StateRef} {s : StateRef}
  {current : Option StateRef}

/-- The ledger of an executor. -/
def ledger (x : Executor) : Ledger where
  kinds s := (x.heap s).map ExecutionState.kind
  nextState := x.nextState
  nextID := x.nextID
  states := x.states
  addedStates := x.addedStates
  removedStates := x.removedStates
  suspendedStates := x.suspendedStates
  resumedStates := x.resumedStates
  is_simulation_mode := x.is_simulation_mode
  inhibitForking := x.inhibitForking
  haltExecution := x.haltExecution
  paths := x.pathsExplored + x.pathsExploredSimulation
  trace := x.trace

/-- The program leaves the ledger of the executor. -/
abbrev Inert {α : Type} (m : ExecM α) : Prop := Fixes ledger m

variable {env : Env}

/-! ## Memory -/

theorem kinds_update {heap : StateRef → Option ExecutionState} {state : Option ExecutionState} :
    (fun t => (Function.update heap s state t).map ExecutionState.kind) =
      Function.update (fun t => (heap t).map ExecutionState.kind) s
        (state.map ExecutionState.kind) :=
  Function.comp_update (Option.map ExecutionState.kind) heap s state

theorem state_yields : Yields (state s) x fun st x' => x = x' ∧ x.heap s = some st := by
  refine .get_bind ?_
  split
  · next st h => exact .pure ⟨rfl, h⟩
  · exact .throw

theorem state_runs (h : x.heap s = some st) : Runs (state s) x fun a x' => st = a ∧ x = x' := by
  refine .get_bind ?_
  rw [h]
  exact .pure ⟨rfl, rfl⟩

theorem state_bind {α : Type} {f : ExecutionState → ExecM α}
    {R : α → Executor → Prop} (h : ∀ st, x.heap s = some st → Yields (f st) x R) :
    Yields (state s >>= f) x R :=
  .bind state_yields fun st _ ⟨heq, hst⟩ => heq ▸ h st hst

theorem state_inert : Inert (state s) := by
  refine .bind .get fun x => ?_
  split
  · exact .pure
  · exact .throw

theorem deref_inert {s : Option StateRef} : Inert (deref s) := by
  cases s with
  | none => exact .throw
  | some s => exact .pure

/-- A write to a state that leaves its kind. -/
theorem setState_yields {st' : ExecutionState} (h : x.heap s = some st) (hk : st'.kind = st.kind) :
    Yields (setState s st') x fun _ x' => x'.ledger = x.ledger := by
  intro _ x' heq
  cases heq
  simp only [ledger, kinds_update, Option.map_some, hk, Ledger.mk.injEq, and_true]
  refine Function.update_eq_self_iff.mpr ?_
  rw [h, Option.map_some]

theorem modifyState_inert {f : ExecutionState → ExecutionState}
    (hf : ∀ st, (f st).kind = st.kind) : Inert (modifyState s f) := by
  intro x
  refine state_bind fun st hst => ?_
  exact setState_yields hst (hf st)

theorem node_inert : Inert (node n) :=
  .bind .get fun _ => .liftM

theorem modifyNode_inert {f : PTreeNode → PTreeNode} : Inert (modifyNode n f) :=
  .bind .get fun _ => .bind .liftM fun _ => .modify fun _ => rfl

theorem removeNode_inert : Inert (removeNode env n) :=
  .bind .get fun _ => .bind .liftM fun _ => .modify fun _ => rfl

theorem getInt32_inert : Inert (getInt32 env) :=
  .bind .get fun _ => .bind (.modify fun _ => rfl) fun _ => .pure

/-! ## The searchers -/

theorem hasEligiableChildren_inert {n : PTreeNode} : Inert (hasEligiableChildren n) := by
  unfold hasEligiableChildren
  split
  · exact .pure
  · refine .bind node_inert fun _ => ?_
    split <;> exact .pure
  · refine .bind node_inert fun _ => ?_
    split <;> exact .pure
  · refine .bind node_inert fun _ => .bind node_inert fun _ => ?_
    repeat' split
    all_goals exact .pure

theorem pickChild_inert : Inert (pickChild env l r) :=
  .bind getInt32_inert fun _ => .pure

theorem selectBestChildren_inert {n : PTreeNode} : Inert (selectBestChildren env n l r) := by
  refine .bind node_inert fun _ => .bind node_inert fun _ => ?_
  split
  · exact .pure
  · exact .pure
  · exact pickChild_inert

theorem doSelection_inert : Inert (doSelection env n) := by
  refine .bind node_inert fun current => ?_
  split
  · exact .pure
  · exact .bind node_inert fun _ => .pure
  · exact .bind node_inert fun _ => .pure
  · refine .bind node_inert fun _ => .bind node_inert fun _ => ?_
    split
    · exact selectBestChildren_inert
    split
    · exact .pure
    split
    · exact .pure
    split
    · exact .throw
    · exact .pure

theorem expandBestChildren_inert : Inert (expandBestChildren env l r) := by
  refine .bind node_inert fun _ => .bind deref_inert fun _ => .bind state_inert
    fun _ => .bind node_inert fun _ => .bind deref_inert fun _ => .bind state_inert
    fun _ => ?_
  split
  split
  · exact .pure
  split
  · exact .pure
  · exact pickChild_inert

theorem expandable_inert {child : Option NodeRef} : Inert (expandable child) := by
  cases child with
  | none => exact .pure
  | some c => exact .bind node_inert fun _ => .pure

theorem expandSwitch_inert : Inert (expandSwitch n l r) :=
  .bind modifyNode_inert fun _ => .bind modifyNode_inert fun _ =>
    .bind modifyNode_inert fun _ => .pure

theorem expandNone_inert : Inert (expandNone n) := by
  refine .bind node_inert fun _ => ?_
  split
  · exact .bind .get fun _ => .bind deref_inert fun _ => .bind state_inert fun _ =>
      .pure
  · exact .pure

theorem doExpansion_inert : Inert (doExpansion env n) := by
  refine .bind node_inert fun _ => .bind expandable_inert fun _ =>
    .bind expandable_inert fun _ => ?_
  split
  · exact expandBestChildren_inert
  · exact .pure
  · exact .pure
  · split
    · refine .bind node_inert fun _ => .bind node_inert fun _ => ?_
      split
      · exact expandSwitch_inert
      · exact expandNone_inert
    · exact expandNone_inert

theorem setHistory_inert {entry : SimulationRecord} :
    Inert (setHistory name entry) := .modify fun _ => rfl

theorem visitHistory_inert : Inert (visitHistory name) := by
  refine .bind .get fun _ => ?_
  split
  · exact .bind setHistory_inert fun _ => .pure
  · exact .bind setHistory_inert fun _ => .pure

theorem enterChildren_inert : Inert (enterChildren n) := by
  refine .bind node_inert fun _ => ?_
  simp only
  split
  · exact .bind modifyNode_inert fun _ => modifyNode_inert
  · exact modifyNode_inert
  · exact modifyNode_inert
  · exact .throw

theorem selectPath_inert {bits : List Bool} : Inert (selectPath env idBitMask fuel bits n) := by
  induction fuel generalizing bits n with
  | zero => exact .throw
  | succ fuel ih =>
    refine .bind node_inert fun _ => ?_
    split
    · exact .pure
    split
    · exact .throw
    · exact ih
    · exact ih
    · split
      · exact ih
      · exact .bind getInt32_inert fun _ => ih

theorem selectRandomPath_inert : Inert (selectRandomPath env idBitMask fuel) := by
  refine .bind .get fun _ => ?_
  simp only
  split
  · exact .throw
  split
  · exact .throw
  · exact selectPath_inert

theorem updateRandomPath_inert : Inert (updateRandomPath idBitMask added removed) := by
  have hpath (walk : Nat → PTree → NodeRef → Except Abort PTree) (es : StateRef) :
      Inert (updatePath walk es) :=
    .bind state_inert fun _ => .bind .get fun _ => .bind .liftM fun _ =>
      .modify fun _ => rfl
  exact .bind (.forM fun _ _ => hpath _ _) fun _ => .forM fun _ _ => hpath _ _

theorem ofType_inert {type : StateType} {l : List StateRef} : Inert (ofType type l) := by
  induction l with
  | nil => exact .pure
  | cons es l ih => exact .bind state_inert fun _ => .bind ih fun _ => .pure

theorem updateSimulation_inert : Inert (updateSimulation added removed) := by
  refine .bind .get fun x => ?_
  split
  · exact .pure
  · exact .bind ofType_inert fun _ => .bind .liftM fun _ => .modify fun _ => rfl
  · exact updateRandomPath_inert

theorem addChildren_inert {rest : List StateRef} : Inert (addChildren current added rest) := by
  induction rest with
  | nil => exact .pure
  | cons es rest ih =>
    exact .bind state_inert fun _ => .bind (.modify fun _ => rfl) fun _ => ih

theorem removeChildren_inert : Inert (removeChildren removed) := by
  induction removed with
  | nil => exact .pure
  | cons es removed ih =>
    refine .bind .get fun _ => ?_
    split
    · exact .throw
    refine .bind .get fun _ => ?_
    split
    · exact .bind (.modify fun _ => rfl) fun _ => ih
    · exact .throw

theorem updateMCTS_inert : Inert (updateMCTS current added removed) := by
  have hleave : Inert (updateMCTS.leaveTree current) := by
    cases current with
    | none => exact .pure
    | some s => exact .bind state_inert fun _ => modifyNode_inert
  exact .bind hleave fun _ => .bind (.modify fun _ => rfl) fun _ =>
    .bind addChildren_inert fun _ => removeChildren_inert

theorem updateSearcher_inert : Inert (updateSearcher current added removed) := by
  have hcurrent : Inert (updateSearcher.currentOriginating current) := by
    cases current with
    | none => exact .pure
    | some s => exact .bind state_inert fun _ => .pure
  refine .bind .get fun _ => ?_
  split
  · exact updateMCTS_inert
  · exact .bind ofType_inert fun _ => .bind ofType_inert fun _ =>
      .bind ofType_inert fun _ => .bind ofType_inert fun _ => .bind hcurrent fun _ =>
      .bind updateMCTS_inert fun _ => updateSimulation_inert

end Executor

/-! ## What is done to the ledger -/

namespace Ledger

/-- Events are added to the trace. -/
def log (l : Ledger) (events : List Event) : Ledger :=
  { l with trace := l.trace ++ events }

/-- A state is deleted. -/
def drop (l : Ledger) (s : StateRef) : Ledger :=
  { l with
    kinds := Function.update l.kinds s none
    trace := l.trace ++ [.deleted s] }

/-- A state is terminated, outside of the epilogue of a simulation. -/
def retire (l : Ledger) (s : StateRef) : Ledger :=
  if s ∈ l.addedStates then
    { l with
      kinds := Function.update l.kinds s none
      addedStates := l.addedStates.erase s
      paths := l.paths + 1
      trace := l.trace ++ [.terminated s, .deleted s] }
  else
    { l with
      removedStates := l.removedStates ++ [s]
      paths := l.paths + 1
      trace := l.trace ++ [.terminated s, .removed s] }

/-- A state of some kind is made, with a number of its own. -/
def fork (l : Ledger) (kind : Kind) : Ledger :=
  { l with
    kinds := Function.update l.kinds l.nextState
      (some ⟨l.nextID, kind.type, kind.suspended⟩)
    nextState := l.nextState + 1
    nextID := l.nextID + 1
    addedStates := l.addedStates ++ [l.nextState] }

variable {l : Ledger} {kind : Kind}

theorem fork_kinds_new : (l.fork kind).kinds l.nextState =
    some ⟨l.nextID, kind.type, kind.suspended⟩ :=
  Function.update_self ..

theorem fork_kinds_old {s : StateRef} (h : s ≠ l.nextState) : (l.fork kind).kinds s = l.kinds s :=
  Function.update_of_ne h ..

end Ledger

namespace Executor

variable {env : Env} {s : StateRef} {l : List StateRef}

theorem record_yields {e : Event} : Yields (record e) x fun _ x' =>
    x'.ledger = x.ledger.log [e] ∧ x'.heap = x.heap := by
  intro _ x' heq
  cases heq
  exact ⟨rfl, rfl⟩

theorem countPath_yields : Yields (countPath st) x fun _ x' =>
    x'.ledger = { x.ledger with paths := x.ledger.paths + 1 } ∧ x'.heap = x.heap := by
  intro _ x' heq
  cases heq
  split
  · simp only [ledger, Ledger.mk.injEq, true_and, and_true]
    exact Nat.add_right_comm ..
  · simp only [ledger, Ledger.mk.injEq, true_and, and_true]
    exact (Nat.add_assoc ..).symm

theorem deleteState_yields : Yields (deleteState s) x fun _ x' => x'.ledger = x.ledger.drop s := by
  intro _ x' heq
  cases heq
  simp only [ledger, kinds_update, Ledger.drop, Option.map_none]

theorem retireState_yields : Yields (retireState env s) x fun _ x' =>
    x'.ledger = x.ledger.retire s ∧ x.ledger.kinds s ≠ none := by
  refine state_bind fun st hst => ?_
  have hkind : x.ledger.kinds s ≠ none := by simp [ledger, hst]
  refine .bind record_yields fun _ x0 ⟨h0, hheap0⟩ => ?_
  refine .bind countPath_yields fun _ x1 ⟨h1, hheap1⟩ => .get_bind ?_
  rw [h0] at h1
  have hadded : x1.addedStates = x.ledger.addedStates :=
    congrArg Ledger.addedStates h1
  rw [hadded]
  split
  · next hin =>
    refine .modify_bind (.bind (removeNode_inert _) fun _ x2 h2 => ?_)
    refine deleteState_yields.imp fun _ x3 h3 => ⟨?_, hkind⟩
    have hmodify : x2.ledger = { x1.ledger with
        addedStates := x1.ledger.addedStates.erase s } := h2
    rw [h3, hmodify, h1, Ledger.retire, if_pos hin]
    simp [Ledger.drop, Ledger.log]
  · next hout =>
    have hst1 : x1.heap s = some st := by rw [hheap1, hheap0, hst]
    refine .bind (setState_yields hst1 rfl) fun _ x2 h2 => .modify_bind (.get_bind ?_)
    have hmodify : ({ x2 with
        removedStates := x2.removedStates ++ [s]
        trace := x2.trace ++ [.removed s] } : Executor).ledger = x.ledger.retire s := by
      show ({ x2.ledger with
        removedStates := x2.ledger.removedStates ++ [s]
        trace := x2.ledger.trace ++ [.removed s] } : Ledger) = _
      rw [h2, h1, Ledger.retire, if_neg hout]
      simp [Ledger.log]
    split
    · exact (modifyNode_inert _).imp fun _ _ h => ⟨h.trans hmodify, hkind⟩
    · exact .pure ⟨hmodify, hkind⟩

/-! ## Instructions -/

theorem addConstraint_inert {condition : Expr} : Inert (addConstraint env s condition) := by
  unfold addConstraint
  split
  · split
    · exact .pure
    · exact .throw
  · exact .bind state_inert fun _ =>
      .bind .liftM fun _ =>
        modifyState_inert fun _ => rfl

theorem addConstraints_inert {l : List (StateRef × Expr)} : Inert (addConstraints env l) := by
  induction l with
  | nil => exact .pure
  | cons a l ih => exact .bind addConstraint_inert fun _ => ih

theorem attachStates_inert {l r : StateRef} : Inert (attachStates l r) := by
  refine .bind state_inert fun _ => .bind .get fun _ =>
    .bind .liftM fun p => ?_
  obtain ⟨t, left, right⟩ := p
  exact .bind (.modify fun _ => rfl) fun _ =>
    .bind (modifyState_inert fun _ => rfl) fun _ => modifyState_inert fun _ => rfl

theorem markForked_inert : Inert (markForked s) := by
  refine .bind .get fun _ => ?_
  split
  · exact .bind state_inert fun _ => modifyNode_inert
  · exact .pure

theorem enterTree_inert : Inert (enterTree s) := by
  refine .bind .get fun _ => ?_
  split
  · exact .bind state_inert fun _ => modifyNode_inert
  · exact .pure

theorem collectInstructionsInSimulation_inert {pc : Pc} :
    Inert (collectInstructionsInSimulation env pc) := by
  refine .modify fun x => ?_
  split
  · rfl
  · rfl

theorem getSimulationReward_inert : Inert (getSimulationReward env s) :=
  .bind .get fun _ => .bind state_inert fun _ => .bind (.modify fun _ => rfl)
    fun _ => .pure

theorem newState_yields : Yields (newState st) x fun t x' =>
    t = x.ledger.nextState ∧ x'.ledger = { x.ledger with
      kinds := Function.update x.ledger.kinds x.ledger.nextState (some st.kind)
      nextState := x.ledger.nextState + 1 } := by
  intro t x' heq
  cases heq
  simp only [ledger, kinds_update, Option.map_some, and_self]

theorem branchState_yields : Yields (branchState s) x fun t x' =>
    ∃ kind, x.ledger.kinds s = some kind ∧ t = x.ledger.nextState ∧
      x'.ledger = x.ledger.fork kind := by
  refine .bind (modifyState_inert (by intro st; rfl) x) fun _ x1 h1 => .get_bind ?_
  refine state_bind fun st hst => ?_
  refine .bind newState_yields fun t x2 ⟨ht, h2⟩ => ?_
  intro t' x' heq
  cases heq
  have hid : x1.nextID = x.ledger.nextID := congrArg Ledger.nextID h1
  rw [h1] at ht
  rw [h1, hid] at h2
  refine ⟨st.kind, ?_, ht, ?_⟩
  · rw [← h1]
    simp [ledger, hst]
  · show ({ x2.ledger with
      nextID := x1.ledger.nextID + 1
      addedStates := x2.ledger.addedStates ++ [t] } : Ledger) = _
    rw [h2, h1, ht]
    rfl

theorem recordDropped_yields : Yields (recordDropped env s) x fun _ x' => x'.ledger = x.ledger ∨
      ∃ st, st.kind ∈ x.ledger.kinds s ∧ x.ledger.inhibitForking = true ∧
        x'.ledger = x.ledger.log [.dropped s st] := by
  refine state_bind fun st hst => ?_
  refine .get_bind ?_
  split
  · next h =>
    refine record_yields.imp fun _ x' h' => .inr ⟨st, ?_, ?_, h'.1⟩
    · simp [ledger, hst]
    · exact (Bool.and_eq_true_iff.mp h).2
  · exact .pure (.inl rfl)

theorem stepInstruction_yields : Yields (stepInstruction s) x fun _ x' =>
      ∃ st, x.heap s = some st ∧ x'.ledger = x.ledger.log [.stepped s st] := by
  refine state_bind fun st hst => ?_
  refine .bind record_yields fun _ x1 ⟨h1, _⟩ => ?_
  refine Yields.imp (modifyState_inert (by intro st; rfl) x1) fun _ _ h => ?_
  exact ⟨st, hst, h.trans h1⟩

/-! ## Bringing the lists up to date -/

theorem insertById_inert {id : Nat} {es : StateRef} : Inert (insertById id es l) := by
  induction l with
  | nil => exact .pure
  | cons s l ih =>
    refine .bind state_inert fun _ => ?_
    split
    · exact .pure
    split
    · exact .pure
    · exact .bind ih fun _ => .pure

theorem eraseById_inert {id : Nat} : Inert (eraseById id l) := by
  induction l with
  | nil => exact .throw
  | cons s l ih =>
    refine .bind state_inert fun _ => ?_
    split
    · exact .pure
    · exact .bind ih fun _ => .pure

theorem filterRemoved_inert : Inert (filterRemoved l) := by
  induction l with
  | nil => exact .pure
  | cons s l ih => exact .bind state_inert fun _ => .bind ih fun _ => .pure

end Executor

end Mcts

end VitalSE
