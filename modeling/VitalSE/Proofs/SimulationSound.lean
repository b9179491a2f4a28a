import VitalSE.Proofs.Ledger
import VitalSE.Proofs.CreateSound
import VitalSE.Proofs.ProcessTreeSound

/-!
# Simulation and normal exploration

A simulation is meant to be invisible to the normal exploration: the state it is
started for is suspended until the copy has come to an end, and forking is
inhibited for the copy. But the searcher that has suspended the state goes on to
return it, and the interpreter loop executes its next instruction, with forking
inhibited.

So every simulation that is started leaves a step of a suspended state in the
trace. Where no simulation is started no state is ever suspended, and nothing
can go wrong; both directions are invariants of the ledger.
-/

namespace VitalSE.Mcts

open Function (update update_self update_of_ne)

variable {s : StateRef} {state : ExecutionState} {x x' : Executor} {α : Type}
  {m : ExecM α} {kind : Kind} {l' l'' : Ledger} {fuel : Nat} {env : Env}
  {events u : List Event} {rounds : List Round} {condition : Expr} {round : Round}

/-! ## Transparency -/

namespace Event

/-- A simulation begins. -/
def isSimulated : Event → Bool
  | simulated _ _ => true
  | _ => false

/-- The state that is put into the list of removed states. -/
def removed? : Event → Option StateRef
  | removed s => some s
  | _ => none

/-- Nothing that has to do with a simulation. -/
def calm : Event → Bool
  | simulated _ _ | resumed _ _ | dropped _ _ => false
  | stepped _ state => !state.isSuspended
  | _ => true

end Event

/-- What a simulation must not do to the normal exploration, as a property of
the trace. -/
structure Transparent (trace : List Event) : Prop where
  /-- A suspended normal state is not stepped. -/
  not_stepped : ∀ s state, .stepped s state ∈ trace → state.isNormalState = true →
    state.isSuspended = false
  /-- The state that is resumed is at the instruction and under the constraints
  at which it was suspended. -/
  unchanged : ∀ before between after s state state',
    trace = before ++ .simulated s state :: between ++ .resumed s state' :: after →
    (∀ state'', .simulated s state'' ∉ between) →
    state'.pc = state.pc ∧ state'.constraints = state.constraints
  /-- No branch of a normal state is given up because forking is inhibited. -/
  not_dropped : ∀ s state, .dropped s state ∈ trace → state.isNormalState = false

/-- The states that were removed, in order. -/
def removals (trace : List Event) : List StateRef := trace.filterMap Event.removed?

@[simp] theorem removals_append {t : List Event} :
    removals (t ++ u) = removals t ++ removals u := List.filterMap_append ..

namespace Ledger

/-- References are given out in order. -/
def Fresh (l : Ledger) : Prop := ∀ s, l.kinds s ≠ none → s < l.nextState

/-- There has been no simulation. -/
structure Calm (l : Ledger) : Prop where
  mode : l.is_simulation_mode = false
  forking : l.inhibitForking = false
  normal : ∀ s kind, l.kinds s = some kind →
    kind.type = .normal ∧ kind.suspended = false
  events : ∀ e ∈ l.trace, e.calm = true

/-- No simulation is started on the way from one ledger to the other. -/
structure Quiet (l l' : Ledger) : Prop where
  grows : ∀ e ∈ l.trace, e ∈ l'.trace
  started : ∀ e ∈ l'.trace, e.isSimulated = true → e ∈ l.trace
  fresh : l.Fresh → l'.Fresh

/-- And none was running. -/
structure Tame (l l' : Ledger) : Prop extends Quiet l l' where
  calm : l.Calm → l'.Calm

variable {l : Ledger}

theorem Quiet.refl : Quiet l l where
  grows _ h := h
  started _ h _ := h
  fresh h := h

theorem Quiet.trans (h : Quiet l l') (h' : Quiet l' l'') : Quiet l l'' where
  grows e he := h'.grows e (h.grows e he)
  started e he hs := h.started e (h'.started e he hs) hs
  fresh hf := h'.fresh (h.fresh hf)

theorem Tame.refl : Tame l l where
  toQuiet := .refl
  calm h := h

theorem Tame.trans (h : Tame l l') (h' : Tame l' l'') : Tame l l'' where
  toQuiet := h.toQuiet.trans h'.toQuiet
  calm hc := h'.calm (h.calm hc)

/-- A ledger with other events and lists. -/
theorem quiet_of_events (htrace : l'.trace = l.trace ++ events)
    (hstarted : ∀ e ∈ events, e.isSimulated = false) (hfresh : l.Fresh → l'.Fresh) :
    Quiet l l' where
  grows e he := by
    rw [htrace]
    exact List.mem_append_left _ he
  started e he hs := by
    rw [htrace] at he
    rcases List.mem_append.mp he with he | he
    · exact he
    · rw [hstarted e he] at hs
      cases hs
  fresh := hfresh

section

variable (hplain : ∀ e ∈ events, e.isSimulated = false)
  (hevents : l.Calm → ∀ e ∈ events, e.calm = true)

include hplain hevents

theorem tame_of_events (htrace : l'.trace = l.trace ++ events)
    (hmode : l'.is_simulation_mode = l.is_simulation_mode)
    (hforking : l'.inhibitForking = l.inhibitForking)
    (hkinds : ∀ s kind, l'.kinds s = some kind → ∃ t kind', l.kinds t = some kind' ∧
      kind.type = kind'.type ∧ kind.suspended = kind'.suspended) (hfresh : l.Fresh → l'.Fresh) :
    Tame l l' where
  toQuiet := quiet_of_events htrace hplain hfresh
  calm h := {
    mode := hmode.trans h.mode
    forking := hforking.trans h.forking
    normal t kind hk := by
      obtain ⟨u, kind', hu, htype, hsuspended⟩ := hkinds t kind hk
      rw [htype, hsuspended]
      exact h.normal u kind' hu
    events e he := by
      rw [htrace] at he
      rcases List.mem_append.mp he with he | he
      · exact h.events e he
      · exact hevents h e he }

/-- Events alone, which are calm where nothing has been simulated. -/
theorem log_tame : Tame l (l.log events) :=
  tame_of_events hplain hevents rfl rfl rfl (fun t kind hk => ⟨t, kind, hk, rfl, rfl⟩) id

end

theorem kinds_dropped {t : StateRef} (h : update l.kinds s none t = some kind) :
    l.kinds t = some kind := by
  by_cases ht : t = s
  · rw [ht, update_self] at h
    cases h
  · rwa [update_of_ne ht] at h

theorem Fresh.dropped (hf : l.Fresh) (t : StateRef) (ht : update l.kinds s none t ≠ none) :
    t < l.nextState := by
  obtain ⟨kind, hk⟩ := Option.ne_none_iff_exists'.mp ht
  exact hf t (by simp [kinds_dropped hk])

theorem drop_tame : Tame l (l.drop s) :=
  tame_of_events (by simp [Event.isSimulated]) (by simp [Event.calm]) rfl rfl rfl
    (fun t kind hk => ⟨t, kind, kinds_dropped hk, rfl, rfl⟩) Fresh.dropped

theorem retire_tame : Tame l (l.retire s) := by
  unfold retire
  split
  · exact tame_of_events (by simp [Event.isSimulated]) (by simp [Event.calm]) rfl rfl
      rfl (fun t kind hk => ⟨t, kind, kinds_dropped hk, rfl, rfl⟩) Fresh.dropped
  · exact tame_of_events (by simp [Event.isSimulated]) (by simp [Event.calm]) rfl rfl
      rfl (fun t kind hk => ⟨t, kind, hk, rfl, rfl⟩) id

/-- References stay in order when the next one is given out. -/
theorem lt_of_update_ne_none {kinds : StateRef → Option Kind} {v : Option Kind}
    {n t : StateRef} (h : ∀ s, kinds s ≠ none → s < n) (ht : update kinds n v t ≠ none) :
    t < n + 1 := by
  by_cases heq : t = n
  · exact heq ▸ Nat.lt_succ_self _
  · rw [update_of_ne heq] at ht
    exact Nat.lt_succ_of_lt (h t ht)

theorem fork_tame (hs : l.kinds s = some kind) : Tame l (l.fork kind) := by
  refine tame_of_events (by simp) (by simp) (List.append_nil _).symm rfl rfl
    (fun t kind' hk => ?_) fun hf t => lt_of_update_ne_none hf
  by_cases ht : t = l.nextState
  · rw [ht, fork_kinds_new] at hk
    cases hk
    exact ⟨s, kind, hs, rfl, rfl⟩
  · rw [fork_kinds_old ht] at hk
    exact ⟨t, kind', hk, rfl, rfl⟩

end Ledger

namespace Executor

/-- The relations between ledgers, for executors. -/
def Quiet (x x' : Executor) : Prop := x.ledger.Quiet x'.ledger

def Tame (x x' : Executor) : Prop := x.ledger.Tame x'.ledger

instance : Std.Refl Quiet := ⟨fun _ => Ledger.Quiet.refl⟩

instance : IsTrans Executor Quiet := ⟨fun _ _ _ => Ledger.Quiet.trans⟩

instance : Std.Refl Tame := ⟨fun _ => Ledger.Tame.refl⟩

instance : IsTrans Executor Tame := ⟨fun _ _ _ => Ledger.Tame.trans⟩

variable {l : List StateRef}

theorem Tame.of_eq {l : Ledger} (h : x'.ledger = l) (ht : x.ledger.Tame l) : Tame x x' := by
  show x.ledger.Tame x'.ledger
  rw [h]
  exact ht

theorem Tame.of_same (h : Same ledger x x') : Tame x x' := .of_eq h .refl

theorem Tame.of_fixes (h : Fixes ledger m) : Keeps Tame m :=
  fun x => (h x).imp fun _ _ => of_same

theorem Tame.quiet (h : Keeps Tame m) : Keeps Quiet m :=
  fun x => (h x).imp fun _ _ ht => ht.toQuiet

theorem Quiet.of_fixes (h : Fixes ledger m) : Keeps Quiet m :=
  Tame.quiet (.of_fixes h)

/-! ## What does not come near a simulation -/

theorem Inert.tame (h : Inert m) : Keeps Tame m := .of_fixes h

/-- The executor apart from its lists of states. -/
def marks (x : Executor) : (StateRef → Option Kind) × StateRef × (Bool × Bool) × List Event :=
  (x.ledger.kinds, x.nextState, (x.is_simulation_mode, x.inhibitForking), x.trace)

theorem modify_tame {f : Executor → Executor} (h : ∀ x, Same marks x (f x)) :
    Keeps Tame (modify f : ExecM Unit) := by
  refine .modify fun x => ?_
  obtain ⟨hkinds, hrest⟩ := Prod.mk.inj (h x)
  obtain ⟨hnext, hrest⟩ := Prod.mk.inj hrest
  obtain ⟨hflags, htrace⟩ := Prod.mk.inj hrest
  obtain ⟨hmode, hforking⟩ := Prod.mk.inj hflags
  have htrace' : (f x).trace = x.trace ++ [] := htrace.trans (List.append_nil _).symm
  refine Ledger.tame_of_events (by simp) (by simp) htrace' hmode hforking
    (fun t kind hk => ?_) fun hf t ht => ?_
  · rw [hkinds] at hk
    exact ⟨t, kind, hk, rfl, rfl⟩
  · rw [hkinds] at ht
    exact lt_of_lt_of_eq (hf t ht) hnext.symm

/-! ## Termination -/

theorem retireState_tame : Keeps Tame (retireState env s) := by
  intro x
  exact retireState_yields.imp fun _ x' h => .of_eq h.1 Ledger.retire_tame

theorem resumeState_quiet : Keeps Quiet (resumeState s) := by
  intro x
  refine state_bind fun st hst => ?_
  split
  · exact .throw
  · intro _ x' heq
    cases heq
    refine Ledger.quiet_of_events
      (show _ = x.ledger.trace ++ [Event.resumed s st] from rfl)
      (by simp [Event.isSimulated]) fun hf t ht => ?_
    by_cases heq : t = s
    · subst heq
      exact hf t (by simp [ledger, hst])
    · refine hf t ?_
      simpa [ledger, update_of_ne heq] using ht

theorem getDependentState_fixes : Fixes ledger (getDependentState s) := by
  refine .bind state_inert fun _ => ?_
  split
  · exact .throw
  · exact deref_inert

theorem notifyDependentState_quiet : Keeps Quiet (notifyDependentState s) :=
  .bind (.of_fixes getDependentState_fixes) fun _ =>
    .bind (.of_fixes state_inert) fun _ =>
    .bind (.of_fixes modifyNode_inert) fun _ => resumeState_quiet

theorem retireSimulations_tame : Keeps Tame (retireSimulations env l) := by
  induction l with
  | nil => exact .pure
  | cons es l ih =>
    refine .bind state_inert.tame fun _ => ?_
    split
    · exact .bind retireState_tame fun _ => .bind (modify_tame fun _ => rfl) fun _ => .throw
    · exact ih

theorem onSimulationStateExit_quiet : Keeps Quiet (onSimulationStateExit env s) := by
  refine .bind (.bind notifyDependentState_quiet fun _ => Tame.quiet retireState_tame)
    fun _ => .bind .get fun _ => .bind (Tame.quiet retireSimulations_tame)
    fun _ => .modify fun x => ?_
  exact Ledger.quiet_of_events (List.append_nil _).symm (by simp) id

theorem endSimulation_quiet : Keeps Quiet (endSimulation env s) := by
  refine .bind (.modify fun x => ?_) fun _ => .bind (.of_fixes getSimulationReward_inert)
    fun _ => .bind onSimulationStateExit_quiet fun _ =>
    .bind (.of_fixes getDependentState_fixes) fun _ => .bind (.of_fixes state_inert)
    fun _ => .bind .get fun _ => .bind .liftM fun _ => .modify fun x => ?_
  · exact Ledger.quiet_of_events (List.append_nil _).symm (by simp) id
  · exact Ledger.Quiet.refl

/-- The epilogue of a simulation is reached only while one is running. -/
theorem terminateState_tame : Keeps Tame (terminateState env s) := by
  intro x
  refine .bind retireState_yields fun _ x1 ⟨h1, _⟩ => .get_bind ?_
  have htame : x.ledger.Tame x1.ledger := h1 ▸ Ledger.retire_tame
  split
  · next hmode =>
    refine (endSimulation_quiet x1).imp fun _ x' hquiet =>
      ⟨htame.toQuiet.trans hquiet, fun hcalm => ?_⟩
    have := hmode.symm.trans (htame.calm hcalm).mode
    cases this
  · exact .pure htame

theorem terminateStates_tame : Keeps Tame (terminateStates env l) := by
  induction l with
  | nil => exact .pure
  | cons es l ih => exact .bind terminateState_tame fun _ => ih

/-! ## Instructions -/

theorem branchState_tame : Keeps Tame (branchState s) := by
  intro x
  refine branchState_yields.imp ?_
  intro t x' ⟨kind, hkind, _, h⟩
  exact .of_eq h (Ledger.fork_tame hkind)

theorem recordDropped_tame : Keeps Tame (recordDropped env s) := by
  intro x
  refine recordDropped_yields.imp ?_
  rintro _ x' (h | ⟨st, -, hforking, h⟩)
  · exact .of_same h
  · refine .of_eq h (Ledger.log_tame (by simp [Event.isSimulated])
      fun hcalm => ?_)
    have := hforking.symm.trans hcalm.forking
    cases this

theorem forkBoth_tame : Keeps Tame (forkBoth env s condition) := by
  have hdepth (t u : StateRef) : Keeps Tame (forkBoth.limitDepth env t u) := by
    refine .bind state_inert.tame fun _ => ?_
    split
    · exact .bind terminateState_tame fun _ => terminateState_tame
    · exact .pure
  refine .bind state_inert.tame fun _ => .bind .get fun _ => ?_
  split
  · exact .throw
  · refine .bind (modify_tame fun _ => rfl) fun _ =>
      .bind branchState_tame fun _ => .bind markForked_inert.tame fun _ =>
      .bind attachStates_inert.tame fun _ =>
      .bind addConstraint_inert.tame fun _ =>
      .bind addConstraint_inert.tame fun _ => hdepth _ _

theorem fork_tame {answer : Option Validity} : Keeps Tame (fork env s condition answer) := by
  unfold fork
  split
  · exact .bind (modifyState_inert (by intro st; rfl)).tame fun _ =>
      terminateState_tame
  · exact .pure
  · exact .pure
  · refine .bind state_inert.tame fun _ => .bind .get fun _ => ?_
    split
    · exact forkBoth_tame
    · exact .bind recordDropped_tame fun _ => .bind getInt32_inert.tame fun _ =>
        addConstraint_inert.tame

theorem branchStates_tame {n : Nat} {result : List StateRef} :
    Keeps Tame (branchStates env n result) := by
  induction n generalizing result with
  | zero => exact .pure
  | succ n ih =>
    exact .bind getInt32_inert.tame fun _ => .bind deref_inert.tame fun _ =>
      .bind branchState_tame fun _ =>
      .bind attachStates_inert.tame fun _ => ih

theorem branch_tame {conditions : List Expr} : Keeps Tame (branch env s conditions) := by
  refine .bind state_inert.tame fun _ => .bind .get fun _ => ?_
  split
  · exact .bind (modify_tame fun _ => rfl) fun _ => .bind branchStates_tame fun _ =>
      addConstraints_inert.tame
  · refine .bind recordDropped_tame fun _ =>
      .bind getInt32_inert.tame fun _ => ?_
    simp only
    split
    · exact .throw
    · exact addConstraint_inert.tame

theorem apply_tame {e : Effect} : Keeps Tame (e.apply env) := by
  cases e with
  | jump s pc => exact (modifyState_inert (by intro st; rfl)).tame
  | constrain s condition => exact addConstraint_inert.tame
  | fork s condition answer => exact fork_tame
  | branch s conditions => exact branch_tame
  | terminate s isError =>
    exact .bind (modifyState_inert (by intro st; rfl)).tame fun _ =>
      terminateState_tame
  | halt => exact modify_tame fun _ => rfl

theorem executeInstruction_tame {effects : List Effect} :
    Keeps Tame (executeInstruction env effects) := by
  induction effects with
  | nil => exact .pure
  | cons e effects ih =>
    exact .bind apply_tame fun _ => ih

theorem stepInstruction_tame : Keeps Tame (stepInstruction s) := by
  intro x
  refine stepInstruction_yields.imp ?_
  rintro _ x' ⟨st, hst, h⟩
  refine .of_eq h (Ledger.log_tame (by simp [Event.isSimulated])
    fun hcalm => ?_)
  have hkind := (hcalm.normal s st.kind (by simp [ledger, hst])).2
  have hsuspended : st.isSuspended = false := hkind
  simp [Event.calm, hsuspended]

/-! ## Bringing the lists up to date -/

theorem insertStates_tame : Keeps Tame (insertStates l) := by
  induction l with
  | nil => exact .pure
  | cons es l ih =>
    exact .bind state_inert.tame fun _ => .bind .get fun _ => .bind insertById_inert.tame fun _ =>
      .bind (modify_tame fun _ => rfl) fun _ => ih

theorem deleteState_tame : Keeps Tame (deleteState s) :=
  fun _ => deleteState_yields.imp fun _ _ h => .of_eq h Ledger.drop_tame

theorem disposeStates_tame : Keeps Tame (disposeStates env l) := by
  have hdispose (es : StateRef) : Keeps Tame (disposeState env es) := by
    refine .bind state_inert.tame fun _ => .bind .get fun _ => .bind node_inert.tame fun _ => ?_
    split
    · exact .pure
    · exact .bind removeNode_inert.tame fun _ => deleteState_tame
  induction l with
  | nil => exact .pure
  | cons es l ih =>
    refine .bind state_inert.tame fun _ => ?_
    split
    · exact ih
    · exact .bind .get fun _ => .bind eraseById_inert.tame fun _ =>
        .bind (modify_tame fun _ => rfl) fun _ => .bind (hdispose es) fun _ => ih

theorem notified_tame : Keeps Tame (record (.notified s)) := by
  refine fun x => record_yields.imp fun _ x' h => .of_eq h.1 ?_
  exact Ledger.log_tame (by simp [Event.isSimulated]) (by simp [Event.calm])

theorem updateStates_tame {current : Option StateRef} : Keeps Tame (updateStates env current) :=
  .bind .get fun _ => .bind filterRemoved_inert.tame fun _ =>
    .bind updateSearcher_inert.tame fun _ => .bind (.forM fun _ _ => notified_tame) fun _ =>
    .bind (.forM fun _ _ => updateSearcher_inert.tame) fun _ =>
    .bind (modify_tame fun _ => rfl) fun _ =>
    .bind (.forM fun _ _ => updateSearcher_inert.tame) fun _ =>
    .bind (modify_tame fun _ => rfl) fun _ => .bind insertStates_tame fun _ =>
    .bind (modify_tame fun _ => rfl) fun _ => .bind disposeStates_tame fun _ =>
    modify_tame fun _ => rfl

theorem checkMemoryUsage_tame : Keeps Tame (checkMemoryUsage env round) := by
  refine .bind .get fun _ => ?_
  split
  · exact .throw
  refine .bind (modify_tame fun _ => rfl) fun _ =>
    .bind terminateStates_tame fun _ => .bind .get fun _ => ?_
  split
  · exact updateStates_tame
  · exact .pure

end Executor

/-! ## The start of a simulation -/

namespace Ledger

/-- A simulation of the state `s` is started, and no other one. -/
structure Started (l : Ledger) (s : StateRef) (l' : Ledger) : Prop where
  grows : ∀ e ∈ l.trace, e ∈ l'.trace
  started : ∀ e ∈ l'.trace, e.isSimulated = true →
    e ∈ l.trace ∨ ∃ state, e = .simulated s state
  simulated : ∃ state, .simulated s state ∈ l'.trace
  fresh : l.Fresh → l'.Fresh
  suspended : l.Fresh → ∃ kind, l'.kinds s = some kind ∧ kind.type = .normal ∧
    kind.suspended = true

variable {l : Ledger}

/-- A state is suspended and a copy of it is made. -/
theorem started_of_copy {kind' : Kind} (hs : l.kinds s = some kind)
    (hnormal : kind.type = .normal) (hnext : l'.nextState = l.nextState + 1)
    (hkinds : l'.kinds = update
      (update l.kinds s (some { kind with suspended := true })) l.nextState
      (some kind')) (htrace : l'.trace = l.trace ++ [.simulated s state]) :
    Started l s l' where
  grows e he := by
    rw [htrace]
    exact List.mem_append_left _ he
  started e he _ := by
    rw [htrace] at he
    rcases List.mem_append.mp he with he | he
    · exact .inl he
    · exact .inr ⟨state, List.mem_singleton.mp he⟩
  simulated := by
    rw [htrace]
    exact ⟨state, List.mem_append_right _ (List.mem_singleton.mpr rfl)⟩
  fresh hf t ht := by
    rw [hnext]
    refine lt_of_update_ne_none (fun u hu => ?_) (hkinds ▸ ht)
    by_cases heq : u = s
    · exact hf u (by rw [heq, hs]; simp)
    · rw [update_of_ne heq] at hu
      exact hf u hu
  suspended hf := by
    have hold : s ≠ l.nextState := (hf s (by rw [hs]; simp)).ne
    refine ⟨{ kind with suspended := true }, ?_, hnormal, rfl⟩
    rw [hkinds, update_of_ne hold, update_self]

theorem Started.after (h : Tame l l') (h' : Started l' s l'') : Started l s l'' where
  grows e he := h'.grows e (h.grows e he)
  started e he hs := (h'.started e he hs).imp_left fun he => h.started e he hs
  simulated := h'.simulated
  fresh hf := h'.fresh (h.fresh hf)
  suspended hf := h'.suspended (h.fresh hf)

end Ledger

namespace Executor

variable {n : NodeRef}

theorem node_yields : Yields (node n) x fun node x' =>
    x = x' ∧ x.processTree.nodes n = some node := by
  refine .get_bind fun node x' heq => ?_
  obtain ⟨node', hnode, heq⟩ := Except.bind_eq_ok.mp heq
  cases heq
  exact ⟨rfl, PTree.node_eq_ok.mp hnode⟩

theorem modifyState_yields {f : ExecutionState → ExecutionState} :
    Yields (modifyState s f) x fun _ x' => ∃ st, x.heap s = some st ∧
      x'.ledger = { x.ledger with
        kinds := update x.ledger.kinds s (some (f st).kind) } := by
  refine state_bind fun st hst => ?_
  intro _ x' heq
  cases heq
  refine ⟨st, hst, ?_⟩
  simp only [ledger, kinds_update, Option.map_some]

theorem suspendState_yields : Yields (suspendState s) x fun _ x' =>
    ∃ kind, x.ledger.kinds s = some kind ∧ kind.type = .normal ∧
      x'.ledger = { x.ledger with
        kinds := update x.ledger.kinds s (some { kind with suspended := true })
        suspendedStates := x.ledger.suspendedStates ++ [s] } := by
  refine state_bind fun st hst => ?_
  split
  · exact .throw
  · next hnormal =>
    refine .bind modifyState_yields fun _ x1 h1 => ?_
    obtain ⟨st', hst', h1⟩ := h1
    rw [hst, Option.some.injEq] at hst'
    subst hst'
    intro _ x' heq
    cases heq
    refine ⟨st.kind, by simp [ledger, hst], ?_, ?_⟩
    · show st.type = .normal
      simpa [ExecutionState.isNormalState] using hnormal
    · show ({ x1.ledger with
        suspendedStates := x1.ledger.suspendedStates ++ [s] } : Ledger) = _
      rw [h1]
      rfl

theorem startSimulationState_yields : Yields (startSimulationState s) x fun _ x' =>
    ∃ st, x.heap s = some st ∧ x'.ledger.nextState = x.ledger.nextState + 1 ∧
      x'.ledger.kinds = update x.ledger.kinds x.ledger.nextState
        (some ⟨0, .simulation, st.suspendStatus⟩) ∧
      x'.ledger.trace = x.ledger.trace ++ [.simulated s st] := by
  refine state_bind fun st hst => ?_
  refine .bind newState_yields fun t x1 ⟨ht, h1⟩ => ?_
  refine .bind (modifyState_inert (by intro st; rfl) x1) fun _ x2 h2 => ?_
  intro _ x' heq
  cases heq
  have h2 : x2.ledger = _ := h2.trans h1
  refine ⟨st, hst, congrArg Ledger.nextState h2, congrArg Ledger.kinds h2, ?_⟩
  show x2.ledger.trace ++ _ = _
  rw [h2]

/-- The state of the node is suspended when its simulation starts. -/
theorem doSimulation_yields {node : PTreeNode}
    (hnode : x.processTree.nodes n = some node) (hs : node.state = some s) :
    Yields (doSimulation n) x fun _ x' => x.ledger.Started s x'.ledger := by
  refine .bind node_yields ?_
  rintro node' _ ⟨rfl, hnode'⟩
  rw [hnode, Option.some.injEq] at hnode'
  subst hnode'
  split
  · exact .throw
  · next t ht =>
    rw [ht, Option.some.injEq] at hs
    subst hs
    refine .modify_bind (.bind suspendState_yields ?_)
    rintro _ x1 ⟨kind, hkind, hnormal, h1⟩
    refine .bind startSimulationState_yields ?_
    rintro _ x2 ⟨st, hst, hnext, hkinds, htrace⟩
    refine .bind (modifyNode_inert x2) fun _ x3 h3 => .get_bind (.pure ?_)
    show x.ledger.Started t x3.ledger
    rw [show x3.ledger = x2.ledger from h3]
    rw [h1] at hnext hkinds htrace
    exact Ledger.started_of_copy hkind hnormal hnext hkinds htrace

/-! ## The searcher -/

theorem visitHistory_tree {name : String} : Fixes Executor.processTree (visitHistory name) := by
  refine .bind .get fun _ => ?_
  split
  · exact .bind (.modify fun _ => rfl) fun _ => .pure
  · exact .bind (.modify fun _ => rfl) fun _ => .pure

theorem modifyNode_yields {f : PTreeNode → PTreeNode} :
    Yields (modifyNode n f) x fun _ x' => ∃ node,
      x.processTree.nodes n = some node ∧ x'.processTree.nodes n = some (f node) := by
  refine .get_bind (.except_bind fun t ht => ?_)
  obtain ⟨node, hnode, ht⟩ := Except.bind_eq_ok.mp ht
  cases ht
  intro _ x' heq
  cases heq
  exact ⟨node, PTree.node_eq_ok.mp hnode, update_self ..⟩

/-- A rule for the choice of a state: `P` is kept as long as the loop goes on, and
`Q` is what holds of the state that is chosen. -/
structure Selection (env : Env) (P : Executor → Prop)
    (Q : StateRef → Executor → Prop) : Prop where
  kept : ∀ x x', Same ledger x x' → P x → P x'
  chosen : ∀ s x, P x → Q s x
  chosen_kept : ∀ s x x', Same ledger x x' → Q s x → Q s x'
  simulated : ∀ n s x node, env.enable_simulation = true → P x →
    x.processTree.nodes n = some node → node.state = some s →
      Yields (doSimulation n) x fun _ x' => Q s x'
  terminated : ∀ s x, env.enable_simulation = true → P x →
    Yields (terminateState env s) x fun _ x' => P x'

namespace Selection

variable {P : Executor → Prop} {Q : StateRef → Executor → Prop}
  (h : Selection env P Q) {selected : Option StateRef}

include h

theorem bind {β : Type} {f : α → ExecM β} {R : β → Executor → Prop} (hm : Inert m)
    (hx : P x) (hf : ∀ a x', P x' → Yields (f a) x' R) :
    Yields (m >>= f) x R :=
  .bind (hm x) fun a x' hsame => hf a x' (h.kept x x' hsame hx)

theorem deref (hx : P x) : Yields (deref selected) x Q :=
  (deref_inert x).imp fun s x' hsame => h.chosen s x' (h.kept x x' hsame hx)

theorem simulateOnce {node : PTreeNode} (henable : env.enable_simulation = true) (hx : P x)
    (hnode : x.processTree.nodes n = some node) (hs : node.state = some s) :
    Yields (simulateOnce env n s) x fun simulated x' =>
      if simulated = true then Q s x' else P x' := by
  unfold Executor.simulateOnce
  split
  · refine state_bind fun st _ => ?_
    refine .bind ((visitHistory_inert x).and (visitHistory_tree x))
      fun entry x1 ⟨hsame, htree⟩ => ?_
    have hx := h.kept x x1 hsame hx
    rw [← show x1.processTree = x.processTree from htree] at hnode
    split
    · refine .bind (h.simulated n s x1 node henable hx hnode hs) fun reward x2 hx2 => ?_
      exact .bind (setHistory_inert x2) fun _ x3 hsame3 =>
        .pure (h.chosen_kept s x2 x3 hsame3 hx2)
    · exact h.bind modifyNode_inert hx fun _ x2 hx2 =>
        .bind (h.terminated s x2 henable hx2) fun _ x3 hx3 => .pure hx3
  · exact .bind (h.simulated n s x node henable hx hnode hs) fun _ x1 hx1 => .pure hx1

theorem expand {node : PTreeNode} (hx : P x) (hnode : x.processTree.nodes n = some node)
    (hs : node.state = some s) :
    Yields (expand env n s) x fun expansion x' =>
      match expansion with
      | .again => P x'
      | .return t => Q t x' := by
  refine .bind ((modifyNode_inert x).and modifyNode_yields) ?_
  rintro _ x1 ⟨hsame1, node', hnode', hnode1⟩
  obtain rfl : node = node' := Option.some.inj (hnode.symm.trans hnode')
  refine .bind node_yields ?_
  rintro expanded _ ⟨rfl, -⟩
  have hx1 := h.kept x x1 hsame1 hx
  split
  · exact .get_bind (.bind (h.deref hx1) fun _ x2 hx2 => .pure hx2)
  refine .modify_bind (state_bind fun st _ => ?_)
  have hx2 := h.kept x1 { x1 with current_state := some s } rfl hx1
  split
  · split
    · exact .throw
    · exact .pure hx2
  split
  · next hsimulate =>
    have henable := (Bool.and_eq_true_iff.mp hsimulate).1
    refine .bind (h.simulateOnce henable hx2 hnode1 hs) fun simulated x3 hx3 => .pure ?_
    cases simulated with
    | true => exact hx3
    | false => exact hx3
  · exact .pure (h.chosen s _ hx2)

theorem selectLoop {root : NodeRef} (hx : P x) :
    Yields (selectLoop env fuel root selected) x Q := by
  induction fuel generalizing x root selected with
  | zero => exact .throw
  | succ fuel ih =>
    refine h.bind node_inert hx fun rootNode x1 hx1 => ?_
    split
    · exact h.deref hx1
    refine h.bind hasEligiableChildren_inert hx1 fun _ x2 hx2 => ?_
    split
    · refine h.bind doSelection_inert hx2 fun _ x3 hx3 =>
        h.bind node_inert hx3 fun _ x4 hx4 => ?_
      split
      · exact h.deref hx4
      · exact ih hx4
    · refine h.bind doExpansion_inert hx2 fun n x3 hx3 =>
        .bind node_yields ?_
      rintro node _ ⟨rfl, hnode⟩
      split
      · exact h.bind enterChildren_inert hx3 fun _ x4 hx4 => ih hx4
      · next s hs =>
        refine .bind (h.expand hx3 hnode hs) fun expansion x4 hx4 => ?_
        cases expansion with
        | again => exact ih hx4
        | «return» t => exact .pure hx4

/-- While a simulation is running, its own searcher selects if there is one. -/
theorem selectState (hrunning : ∀ s x', Same ledger x x' → Q s x') (hx : P x) :
    Yields (selectState env fuel) x Q := by
  refine .get_bind ?_
  split
  · exact (deref_inert x).imp hrunning
  · exact (selectRandomPath_inert x).imp hrunning
  · refine .get_bind ?_
    split
    · exact .throw
    · exact .pure (hrunning _ x rfl)
    split
    · exact .throw
    · exact h.selectLoop hx

end Selection

/-- Between the start of a round and its step: nothing has happened to the
ledger but that a simulation of the state may have been started. -/
def Selected (env : Env) (x : Executor) (s : StateRef) (x' : Executor) : Prop :=
  Tame x x' ∨ env.enable_simulation = true ∧ x.ledger.Started s x'.ledger

theorem selection_selected : Selection env (Tame x) (Selected env x) where
  kept _ _ hsame htame := htame.trans (Tame.of_same hsame)
  chosen _ _ htame := .inl htame
  chosen_kept s x1 x2 hsame hselected := by
    rw [Selected, Tame, show x2.ledger = x1.ledger from hsame]
    exact hselected
  simulated n s x1 node henable htame hnode hs :=
    (doSimulation_yields hnode hs).imp fun _ _ hs => .inr ⟨henable, .after htame hs⟩
  terminated s x1 _ htame := (terminateState_tame x1).imp fun _ _ h => htame.trans h

theorem selectState_yields : Yields (selectState env fuel) x fun s x' => Selected env x s x' :=
  selection_selected.selectState (fun _ _ hsame => .inl (.of_same hsame)) .refl

end Executor

/-! ## Rounds -/

/-- Every simulation has left a step of a suspended state in the trace, and
without one there is nothing of the kind. -/
structure Ledger.Traced (l : Ledger) : Prop where
  fresh : l.Fresh
  stepped : ∀ s state, .simulated s state ∈ l.trace → ∃ state',
    .stepped s state' ∈ l.trace ∧ state'.isNormalState = true ∧
      state'.isSuspended = true
  calm : l.Calm ∨ ∃ s state, .simulated s state ∈ l.trace

namespace Ledger

variable {l : Ledger}

theorem Traced.tame (h : l.Traced) (ht : Tame l l') : l'.Traced where
  fresh := ht.fresh h.fresh
  stepped s state hs := by
    obtain ⟨state', hstep, hstate'⟩ := h.stepped s state (ht.started _ hs rfl)
    exact ⟨state', ht.grows _ hstep, hstate'⟩
  calm := by
    rcases h.calm with hcalm | ⟨s, state, hs⟩
    · exact .inl (ht.calm hcalm)
    · exact .inr ⟨s, state, ht.grows _ hs⟩

/-- A state whose simulation has been started is stepped. -/
theorem Traced.step (h : l.Traced) (hs : Started l s l')
    (hstate : state.kind ∈ l'.kinds s) : (l'.log [.stepped s state]).Traced where
  fresh := hs.fresh h.fresh
  stepped t state' ht := by
    have ht : .simulated t state' ∈ l'.trace := by
      rcases List.mem_append.mp ht with ht | ht
      · exact ht
      · cases List.mem_singleton.mp ht
    rcases hs.started _ ht rfl with ht | ⟨state'', heq⟩
    · obtain ⟨st, hstep, hst⟩ := h.stepped t state' ht
      exact ⟨st, List.mem_append_left _ (hs.grows _ hstep), hst⟩
    · cases heq
      obtain ⟨kind, hkind, hnormal, hsuspended⟩ := hs.suspended h.fresh
      obtain rfl : state.kind = kind := Option.some.inj (hstate.symm.trans hkind)
      refine ⟨state, List.mem_append_right _ (List.mem_singleton.mpr rfl), ?_, hsuspended⟩
      exact decide_eq_true hnormal
  calm := by
    obtain ⟨state', hs'⟩ := hs.simulated
    exact .inr ⟨s, state', List.mem_append_left _ hs'⟩

end Ledger

namespace Executor

variable {pc : Pc} {searcher : SimulationSearcher}

/-- The rest of a round, when a state has been selected. -/
theorem finish_tame : Keeps Tame (do
    executeInstruction env round.effects
    enterTree s
    updateStates env (some s)
    checkMemoryUsage env round) :=
  .bind executeInstruction_tame fun _ => .bind enterTree_inert.tame fun _ =>
    .bind updateStates_tame fun _ => checkMemoryUsage_tame

theorem selectNext_traced {fuel : Nat} (h : x.ledger.Traced) :
    Yields (selectNext env fuel) x fun _ x' => x'.ledger.Traced := by
  refine .bind selectState_yields fun s x1 hselect => .bind state_yields ?_
  rintro st _ ⟨rfl, -⟩
  refine .bind (collectInstructionsInSimulation_inert x1) fun _ x2 h2 => ?_
  have h2 : x2.ledger = x1.ledger := h2
  refine .bind ((stepInstruction_tame x2).and stepInstruction_yields) ?_
  rintro _ x3 ⟨hstep, st, hst, h3⟩
  refine .pure ?_
  rcases hselect with htame | ⟨-, hstarted⟩
  · have htraced2 : x2.ledger.Traced := by
      rw [h2]
      exact h.tame htame
    exact htraced2.tame hstep
  · rw [h3, h2]
    refine h.step hstarted ?_
    rw [← h2]
    simp [ledger, hst]

theorem explore_traced (h : x.ledger.Traced) :
    Yields (explore env round) x fun _ x' => x'.ledger.Traced := by
  refine .get_bind (.get_bind ?_)
  split
  · exact .pure h
  · exact .bind (selectNext_traced h) fun _ x1 h1 =>
      (finish_tame x1).imp fun _ _ htame => h1.tame htame

theorem run_traced (h : x.ledger.Traced) :
    Yields (run env rounds) x fun _ x' => x'.ledger.Traced := by
  induction rounds generalizing x with
  | nil => exact .pure h
  | cons round rounds ih => exact .bind (explore_traced h) fun _ _ h => ih h

/-- With simulation turned off, nothing is ever simulated. -/
theorem explore_tame (h : env.enable_simulation = false) : Keeps Tame (explore env round) := by
  have hselect {fuel : Nat} : Keeps Tame (selectState env fuel) := by
    intro x
    refine selectState_yields.imp fun s x' hs => ?_
    rcases hs with htame | ⟨henable, -⟩
    · exact htame
    · rw [h] at henable
      cases henable
  refine .bind .get fun _ => .bind .get fun _ => ?_
  split
  · exact .pure
  · exact .bind (.bind hselect fun _ => .bind state_inert.tame fun _ =>
      .bind collectInstructionsInSimulation_inert.tame fun _ =>
      .bind stepInstruction_tame fun _ => .pure) fun _ => finish_tame

theorem run_tame (h : env.enable_simulation = false) : Keeps Tame (run env rounds) := by
  induction rounds with
  | nil => exact .pure
  | cons round rounds ih => exact .bind (explore_tame h) fun _ => ih

theorem create_fresh : (create pc searcher).ledger.Fresh := by
  intro s hs
  by_cases h : s = 0
  · exact h ▸ Nat.one_pos
  · simp [ledger, create, update_of_ne h] at hs

theorem create_calm : (create pc searcher).ledger.Calm where
  mode := rfl
  forking := rfl
  normal s kind hs := by
    by_cases h : s = 0
    · simp [ledger, create, h] at hs
      rw [← hs]
      exact ⟨rfl, rfl⟩
    · simp [ledger, create, update_of_ne h] at hs
  events := by simp [ledger, create]

theorem create_traced : (create pc searcher).ledger.Traced where
  fresh := create_fresh
  stepped := by simp [ledger, create]
  calm := .inl create_calm

end Executor

theorem Ledger.Calm.transparent {l : Ledger} (h : l.Calm) : Transparent l.trace where
  not_stepped s state hs _ := by
    simpa [Event.calm] using h.events _ hs
  unchanged before between after s state state' htrace _ := by
    have hs : .resumed s state' ∈ l.trace := by
      rw [htrace]
      simp
    cases h.events _ hs
  not_dropped s state hs := by cases h.events _ hs

/-- A run is transparent exactly if no simulation was started in it, as is the
case with simulation turned off. -/
theorem transparent_iff_not_simulated (env : Env) (pc : Pc)
    (searcher : SimulationSearcher) (rounds : List Round) (y : Executor)
    (h : Executor.run env rounds (.create pc searcher) = .ok ((), y)) :
    (Transparent y.trace ↔ ∀ s state, .simulated s state ∉ y.trace) ∧
      (env.enable_simulation = false → Transparent y.trace) := by
  have htraced : y.ledger.Traced := Executor.run_traced Executor.create_traced () y h
  constructor
  · constructor
    · intro ht s state hs
      obtain ⟨state', hstep, hnormal, hsuspended⟩ := htraced.stepped s state hs
      rw [ht.not_stepped s state' hstep hnormal] at hsuspended
      cases hsuspended
    · intro hnone
      rcases htraced.calm with hcalm | ⟨s, state, hs⟩
      · exact hcalm.transparent
      · exact absurd hs (hnone s state)
  · intro henable
    have htame := Executor.run_tame henable _ () y h
    exact (htame.calm Executor.create_calm).transparent

/-! ## A simulation -/

/-- The default options, for a program with nothing recorded and a generator that
always takes the left child. -/
def Env.default : Env where
  enable_simulation := true
  simulation_opt := true
  simulation_limit := 700
  compressProcessTree := false
  maxMemoryInhibit := true
  maxForks := none
  maxDepth := 0
  constArrayOpt := true
  rewriteEqualities := true
  theRNG _ := 0
  blockName _ := "entry"
  isMemoryOperation _ := false
  isRecorded _ := false
  getExpansionScore _ _ := (0, 0)
  compareUCT _ _ _ := .eq

/-- `arr[i] = 5`. -/
def isFive (i : Nat) : Expr :=
  .cmp .eq (Expr.const 5 8) (.read Array.four .null (Expr.const i 32))

/-- The first instruction forks on a byte. The new state is expanded, simulated
and stepped, and its next instruction would fork on another byte. -/
def branchTwice : List Round :=
  [⟨10, [.fork 0 (isFive 0) (some .unknown), .jump 0 10, .jump 1 20], [], false⟩,
   ⟨10, [.fork 1 (isFive 1) (some .unknown), .jump 1 30], [], false⟩]

/-- `arr[i] ≠ 5`. -/
def isNotFive (i : Nat) : Expr := .cmp .eq (Expr.const 0 1) (isFive i)

/-- The new state of the first fork, when it is suspended. -/
def suspendedState : ExecutionState where
  id := 2
  type := .normal
  suspendStatus := true
  simulationState := none
  dependentState := none
  errorCount := 0
  pc := 20
  prevPC := 0
  constraints := [isNotFive 0]
  depth := 1
  forkDisabled := false
  ptreeNode := 1

def initialState : ExecutionState :=
  { suspendedState with
    id := 1
    suspendStatus := false
    pc := 0
    constraints := []
    depth := 0
    ptreeNode := 0 }

/-- The same state when the simulation goes on. -/
def steppedState : ExecutionState :=
  { suspendedState with
    simulationState := some 2
    pc := 30
    prevPC := 20
    constraints := [isNotFive 0, isNotFive 1] }

/-- What happens in the two rounds. -/
def branchTwiceTrace : List Event :=
  [.stepped 0 initialState, .simulated 1 suspendedState,
   .stepped 1 { suspendedState with simulationState := some 2 },
   .dropped 1 { suspendedState with simulationState := some 2, pc := 21, prevPC := 20 }]

theorem branchTwice_trace :
    ∃ y, Executor.run .default branchTwice (.create 0 (.dfs [])) = .ok ((), y) ∧
      y.trace = branchTwiceTrace ∧ y.heap 1 = some steppedState :=
  Except.ok_unit_of_any (by decide +kernel)

/-- The state was suspended for the simulation, and while it is suspended it has
been stepped, has lost a branch and has got elsewhere. -/
theorem branchTwice_not_transparent :
    ∃ y, Executor.run .default branchTwice (.create 0 (.dfs [])) = .ok ((), y) ∧
      (∃ state, .stepped 1 state ∈ y.trace ∧ state.isNormalState = true ∧
        state.isSuspended = true) ∧
      (∃ state, .dropped 1 state ∈ y.trace ∧ state.isNormalState = true) ∧
      (∃ state state', .simulated 1 state ∈ y.trace ∧ y.heap 1 = some state' ∧
        state'.isSuspended = true ∧ state'.pc ≠ state.pc ∧
        state'.constraints ≠ state.constraints) ∧
      ¬Transparent y.trace := by
  obtain ⟨y, hrun, htrace, hstate⟩ := branchTwice_trace
  have hstep : .stepped 1 { suspendedState with simulationState := some 2 } ∈ y.trace := by
    rw [htrace]
    simp [branchTwiceTrace]
  refine ⟨y, hrun, ⟨_, hstep, rfl, rfl⟩, ?_, ?_, ?_⟩
  · rw [htrace]
    exact ⟨{ suspendedState with simulationState := some 2, pc := 21, prevPC := 20 },
      by simp [branchTwiceTrace], rfl⟩
  · rw [htrace]
    exact ⟨suspendedState, steppedState, by simp [branchTwiceTrace], hstate, rfl,
      by decide, by decide⟩
  · intro ht
    cases ht.not_stepped 1 _ hstep rfl

/-- With simulation turned off the same program keeps both of its branches. -/
theorem transparent_iff_not_simulated_off :
    ∃ y, Executor.run { Env.default with enable_simulation := false }
        branchTwice (.create 0 (.dfs [])) = .ok ((), y) ∧
      Transparent y.trace ∧ (∀ s state, .simulated s state ∉ y.trace) ∧
      y.states = [0, 1, 2] := by
  obtain ⟨y, hrun, hy⟩ := Except.ok_unit_of_any (p := fun y => y.states = [0, 1, 2])
    (r := Executor.run { Env.default with enable_simulation := false }
      branchTwice (.create 0 (.dfs []))) (by decide +kernel)
  obtain ⟨hiff, hoff⟩ := transparent_iff_not_simulated _ 0 (.dfs []) _ y hrun
  exact ⟨y, hrun, hoff rfl, hiff.mp (hoff rfl), hy⟩

end VitalSE.Mcts
