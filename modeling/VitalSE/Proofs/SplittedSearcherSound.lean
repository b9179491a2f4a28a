import VitalSE.Core.SplittedSearcher
import VitalSE.Lib.Runs

/-!
# Removed simulation states stay in the simulation searcher

The split searcher passes on the simulation states that were removed, and both of
the simulation searchers skip them. So the simulation searcher has every
simulation state that was ever added, and that is what it should have only as
long as none is removed.
-/

namespace VitalSE.Mcts

namespace SimulationSearch

variable {isSimulationState : StateRef → Bool} {states states' removed : List StateRef}
  {search : SimulationSearch}

theorem removeDFS_simulation (hremoved : ∀ s ∈ removed, isSimulationState s = true) :
    DFSSearcher.remove isSimulationState states removed = .ok states := by
  induction removed with
  | nil => rfl
  | cons s removed ih =>
    rw [DFSSearcher.remove, if_pos (hremoved s (by simp))]
    exact ih fun t ht => hremoved t (List.mem_cons_of_mem _ ht)

theorem removeRandom_simulation (hremoved : ∀ s ∈ removed, isSimulationState s = true)
    (hrun : RandomSearcher.remove isSimulationState states removed = .ok states') :
    states' = states := by
  induction removed with
  | nil => exact (Except.ok.inj hrun).symm
  | cons s removed ih =>
    have hs : isSimulationState s = true := hremoved s (by simp)
    rw [RandomSearcher.remove, hs, Bool.and_true] at hrun
    by_cases hmem : s ∈ states
    · rw [if_pos (decide_eq_true hmem)] at hrun
      exact ih (fun t ht => hremoved t (List.mem_cons_of_mem _ ht)) hrun
    · rw [if_neg (by simpa using hmem), if_neg hmem] at hrun
      cases hrun

/-- Nothing is taken out. -/
theorem update_simulation {u : SearcherUpdate}
    (hremoved : ∀ s ∈ u.removedStates, isSimulationState s = true)
    (hrun : search.update isSimulationState states u = .ok states') :
    states' = states ++ u.addedStates := by
  cases search with
  | dfs => exact (Except.ok.inj ((removeDFS_simulation hremoved).symm.trans hrun)).symm
  | random => exact removeRandom_simulation hremoved hrun

theorem selectState_mem {random : BitVec 32} {s : StateRef}
    (hrun : search.selectState random states = .ok s) : s ∈ states := by
  cases search with
  | dfs =>
    replace hrun : DFSSearcher.selectState states = .ok s := hrun
    unfold DFSSearcher.selectState at hrun
    cases hlast : states.getLast? with
    | none =>
      rw [hlast] at hrun
      cases hrun
    | some t =>
      rw [hlast] at hrun
      cases hrun
      exact List.mem_of_getLast? hlast
  | random =>
    replace hrun : RandomSearcher.selectState random states = .ok s := hrun
    unfold RandomSearcher.selectState at hrun
    cases hget : states[random.toNat % states.length]? with
    | none =>
      rw [hget] at hrun
      cases hrun
    | some t =>
      rw [hget] at hrun
      cases hrun
      exact List.mem_of_getElem? hget

end SimulationSearch

namespace SplittedSearcher

/-- The simulation states that were added. -/
def addedSimulations (isSimulationState : StateRef → Bool) (updates : List SearcherUpdate) :
    List StateRef :=
  updates.flatMap fun u => u.addedStates.filter isSimulationState

/-- The simulation states that the updates remove. -/
def removedSimulations (isSimulationState : StateRef → Bool)
    (updates : List SearcherUpdate) : List StateRef :=
  updates.flatMap fun u => u.removedStates.filter isSimulationState

/-- The executor removes a simulation state after it has added it. -/
def Driven (isSimulationState : StateRef → Bool) (updates : List SearcherUpdate) : Prop :=
  ∀ pre, pre <+: updates →
    ∀ s ∈ removedSimulations isSimulationState pre, s ∈ addedSimulations isSimulationState pre

/-- The simulation searcher has the simulation states that were added and not
removed, and hands out one of them. -/
structure Exact {α : Type} (isSimulationState : StateRef → Bool) (search : SimulationSearch)
    (updates : List SearcherUpdate) (searcher : SplittedSearcher α) : Prop where
  mem : ∀ s, s ∈ searcher.simulationSearcher ↔
    s ∈ addedSimulations isSimulationState updates ∧
      s ∉ removedSimulations isSimulationState updates
  select : ∀ random s, search.selectState random searcher.simulationSearcher = .ok s →
    s ∈ addedSimulations isSimulationState updates ∧
      s ∉ removedSimulations isSimulationState updates

variable {α : Type} {isSimulationState : StateRef → Bool} {search : SimulationSearch}
  {updateMCTS : α → SearcherUpdate → Except Abort α} {mctsSearcher : α}
  {updates pre : List SearcherUpdate} {searcher final : SplittedSearcher α}

theorem update_simulationSearcher {u : SearcherUpdate} {searcher' : SplittedSearcher α}
    (hrun : update isSimulationState search updateMCTS searcher u = .ok searcher') :
    searcher'.simulationSearcher =
      searcher.simulationSearcher ++ u.addedStates.filter isSimulationState := by
  obtain ⟨_, -, hrun⟩ := Except.bind_eq_ok.mp hrun
  obtain ⟨states, hstates, hpure⟩ := Except.bind_eq_ok.mp hrun
  cases hpure
  exact SimulationSearch.update_simulation (fun s hs => (List.mem_filter.mp hs).2) hstates

/-- What was added is there, whatever was removed. -/
theorem run_simulationSearcher
    (hrun : run isSimulationState search updateMCTS mctsSearcher pre = .ok searcher) :
    searcher.simulationSearcher = addedSimulations isSimulationState pre := by
  induction pre using List.reverseRecOn generalizing searcher with
  | nil =>
    cases hrun
    rfl
  | append_singleton pre u ih =>
    unfold run at hrun
    rw [List.foldlM_append] at hrun
    obtain ⟨mid, hpre, hlast⟩ := Except.bind_eq_ok.mp hrun
    rw [List.foldlM_cons] at hlast
    obtain ⟨searcher', hu, hpure⟩ := Except.bind_eq_ok.mp hlast
    cases hpure
    rw [update_simulationSearcher hu, ih hpre]
    simp [addedSimulations]

/-- The simulation searcher is exact after each of the updates if and only if none
of them removes a simulation state. -/
theorem exact_iff_not_removed
    (hrun : run isSimulationState search updateMCTS mctsSearcher updates = .ok final)
    (hdriven : Driven isSimulationState updates) :
    (∀ pre searcher, pre <+: updates →
      run isSimulationState search updateMCTS mctsSearcher pre = .ok searcher →
        Exact isSimulationState search pre searcher) ↔
      ∀ u ∈ updates, ∀ s ∈ u.removedStates, isSimulationState s = false := by
  constructor
  · intro h u hu s hs
    by_contra hsimulation
    have hremoved : s ∈ removedSimulations isSimulationState updates :=
      List.mem_flatMap.mpr ⟨u, hu, List.mem_filter.mpr ⟨hs, by simpa using hsimulation⟩⟩
    have hadded := hdriven updates List.prefix_rfl s hremoved
    rw [← run_simulationSearcher hrun] at hadded
    exact (((h updates final List.prefix_rfl hrun).mem s).mp hadded).2 hremoved
  · intro hnone pre searcher hpre hrun'
    have hremoved : removedSimulations isSimulationState pre = [] := by
      unfold removedSimulations
      rw [List.flatMap_eq_nil_iff]
      intro u hu
      refine List.filter_eq_nil_iff.mpr fun s hs => ?_
      rw [hnone u (hpre.subset hu) s hs]
      decide
    have hmem : ∀ s, s ∈ searcher.simulationSearcher ↔
        s ∈ addedSimulations isSimulationState pre ∧
          s ∉ removedSimulations isSimulationState pre := by
      intro s
      rw [run_simulationSearcher hrun', hremoved]
      simp
    exact ⟨hmem, fun random s hs => (hmem s).mp (SimulationSearch.selectState_mem hs)⟩

/-- As long as the simulation goes on, the random searcher has just its state. -/
theorem exact_iff_not_removed_added :
    ∃ final, run (fun s => s == 2) .random (fun _ _ => .ok ()) ()
        [⟨some 1, [2], [1]⟩, ⟨some 2, [], []⟩] = .ok final ∧
      ∀ pre searcher, pre <+: [⟨some 1, [2], [1]⟩, ⟨some 2, [], []⟩] →
        run (fun s => s == 2) .random (fun _ _ => .ok ()) () pre = .ok searcher →
          Exact (fun s => s == 2) .random pre searcher := by
  have hrun : run (fun s => s == 2) .random (fun _ _ => .ok ()) ()
      [⟨some 1, [2], [1]⟩, ⟨some 2, [], []⟩] = .ok ⟨(), [2]⟩ := rfl
  refine ⟨_, hrun, (exact_iff_not_removed hrun fun pre hpre s hs => ?_).mpr ?_⟩
  · obtain ⟨u, hu, hs⟩ := List.mem_flatMap.mp hs
    rcases List.mem_cons.mp (hpre.subset hu) with rfl | hu
    · simp at hs
    · cases List.mem_singleton.mp hu
      simp at hs
  · simp

/-- State 2 is added for a simulation and then removed. Both searchers still have it,
and hand it out. -/
theorem not_exact_removed :
    (run (fun s => s == 2) .dfs (fun _ _ => .ok ()) ()
        [⟨some 1, [2], [1]⟩, ⟨some 2, [1], [2]⟩] = .ok ⟨(), [2]⟩ ∧
      SimulationSearch.dfs.selectState 0 [2] = .ok 2) ∧
    run (fun s => s == 2) .random (fun _ _ => .ok ()) ()
        [⟨some 1, [2], [1]⟩, ⟨some 2, [1], [2]⟩] = .ok ⟨(), [2]⟩ ∧
      SimulationSearch.random.selectState 0 [2] = .ok 2 :=
  ⟨⟨rfl, rfl⟩, rfl, rfl⟩

end SplittedSearcher

end VitalSE.Mcts
