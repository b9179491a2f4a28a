import VitalSE.Core.WrappedSearchers

/-!
# No state is lost by batching and deepening

`Correct` says what a searcher is for: it holds the states that it was told to add
and not yet told to remove, and hands out one of them. A batching searcher over a
correct one is correct. A deepening searcher splits the states that are live into
those that the wrapped searcher holds and the paused ones; it stays in that shape
as long as the state it is told about as the current one is one that it handed out
and that has not been reported since.
-/

namespace VitalSE.Searchers

open Except (bind_eq_ok)
open Mcts (SearcherUpdate)

variable {σ : Type} {now : Now} {u : SearcherUpdate} {s : StateRef} {base : Searcher σ}
  {Inv : σ → Prop} {stretch : Int → Int}

/-! ## Correct searchers -/

/-- An update that goes with the states that a searcher holds. -/
structure Fits (held : Finset StateRef) (u : SearcherUpdate) : Prop where
  current : ∀ {s}, u.current = some s → s ∈ held
  added_nodup : u.addedStates.Nodup
  added : ∀ {s}, s ∈ u.addedStates → s ∉ held
  removed_nodup : u.removedStates.Nodup
  removed : ∀ {s}, s ∈ u.removedStates → s ∈ held ∨ s ∈ u.addedStates

/-- The states after an update. -/
def updated (held : Finset StateRef) (u : SearcherUpdate) : Finset StateRef :=
  (held ∪ u.addedStates.toFinset) \ u.removedStates.toFinset

theorem mem_updated {held : Finset StateRef} : s ∈ updated held u ↔
    (s ∈ held ∨ s ∈ u.addedStates) ∧ s ∉ u.removedStates := by
  unfold updated
  rw [Finset.mem_sdiff, Finset.mem_union, List.mem_toFinset, List.mem_toFinset]

/-- The searcher holds the states that it should hold, and hands out one of them. -/
structure Correct (S : Searcher σ) (Inv : σ → Prop) (held : σ → Finset StateRef) : Prop where
  update : ∀ {x u} (now), Inv x → Fits (held x) u →
    ∃ x', S.update now u x = .ok x' ∧ Inv x' ∧ held x' = updated (held x) u
  select : ∀ {x} (now), Inv x → (held x).Nonempty →
    ∃ s x', S.selectState now x = .ok (s, x') ∧ Inv x' ∧ held x' = held x ∧ s ∈ held x
  empty : ∀ {x}, Inv x → (S.empty x = true ↔ held x = ∅)

/-! ## The depth-first searcher -/

namespace DFSSearcher

theorem remove_spec {states removed : List StateRef} (hnodup : states.Nodup)
    (hnodup' : removed.Nodup) (hremoved : ∀ s ∈ removed, s ∈ states) :
    ∃ states', Mcts.DFSSearcher.remove (fun _ => false) states removed = .ok states' ∧
      states'.Nodup ∧ ∀ s, s ∈ states' ↔ s ∈ states ∧ s ∉ removed := by
  induction removed generalizing states with
  | nil => exact ⟨states, rfl, hnodup, fun s => by simp⟩
  | cons t removed ih =>
    rw [List.nodup_cons] at hnodup'
    have ht := hremoved t List.mem_cons_self
    -- The last state is popped, any other one is erased: the outcome is the same.
    have herase : Mcts.DFSSearcher.remove (fun _ => false) states (t :: removed) =
        Mcts.DFSSearcher.remove (fun _ => false) (states.erase t) removed := by
      rw [Mcts.DFSSearcher.remove, if_neg Bool.false_ne_true]
      split
      case isTrue hlast =>
        obtain ⟨front, rfl⟩ := List.getLast?_eq_some_iff.mp hlast
        have hfront : t ∉ front := by
          intro hmem
          exact (List.nodup_append.mp hnodup).2.2 t hmem t List.mem_cons_self rfl
        rw [List.dropLast_concat, List.erase_append_right _ hfront, List.erase_cons_head,
          List.append_nil]
      case isFalse => rfl
    have hmem : ∀ s, s ∈ states.erase t ↔ s ≠ t ∧ s ∈ states := fun s =>
      hnodup.mem_erase_iff
    obtain ⟨states', hrun, hnodup1, hheld⟩ := ih (hnodup.erase t) hnodup'.2 fun s hs =>
      (hmem s).mpr ⟨fun heq => hnodup'.1 (heq ▸ hs), hremoved s (List.mem_cons_of_mem t hs)⟩
    refine ⟨states', herase.trans hrun, hnodup1, fun s => ?_⟩
    rw [hheld, hmem, List.mem_cons, not_or]
    exact ⟨fun ⟨⟨hne, hs⟩, hnot⟩ => ⟨hs, hne, hnot⟩, fun ⟨hs, hne, hnot⟩ => ⟨⟨hne, hs⟩, hnot⟩⟩

theorem correct : Correct searcher List.Nodup List.toFinset := by
  refine ⟨?_, ?_, ?_⟩
  · intro states u now hnodup hfits
    have hall : (states ++ u.addedStates).Nodup := by
      refine List.nodup_append.mpr ⟨hnodup, hfits.added_nodup, fun s hs t ht heq => ?_⟩
      exact hfits.added ht (List.mem_toFinset.mpr (heq ▸ hs))
    obtain ⟨states', hrun, hnodup', hheld⟩ := remove_spec hall hfits.removed_nodup fun s hs =>
      List.mem_append.mpr ((hfits.removed hs).imp_left List.mem_toFinset.mp)
    refine ⟨states', hrun, hnodup', Finset.ext fun s => ?_⟩
    rw [List.mem_toFinset, hheld, List.mem_append, mem_updated, List.mem_toFinset]
  · intro states now hnodup hne
    have hne' : states ≠ [] := by
      intro hnil
      rw [hnil] at hne
      exact Finset.not_nonempty_empty hne
    refine ⟨states.getLast hne', states, ?_, hnodup, rfl,
      List.mem_toFinset.mpr (List.getLast_mem hne')⟩
    have hlast : Mcts.DFSSearcher.selectState states = .ok (states.getLast hne') := by
      rw [Mcts.DFSSearcher.selectState.eq_def, List.getLast?_eq_some_getLast hne']
    exact bind_eq_ok.mpr ⟨_, hlast, rfl⟩
  · intro states _
    rw [List.toFinset_eq_empty_iff]
    exact List.isEmpty_iff

end DFSSearcher

/-! ## Batching -/

namespace BatchingSearcher

variable {held : σ → Finset StateRef}

/-- The state of the batch is one that the wrapped searcher holds. -/
structure Batched (Inv : σ → Prop) (held : σ → Finset StateRef) (x : BatchingSearcher σ) :
    Prop where
  base : Inv x.baseSearcher
  last : ∀ {s}, x.lastState = some s → s ∈ held x.baseSearcher

theorem continues_eq_some {x : BatchingSearcher σ} (h : x.continues now = some s) :
    x.lastState = some s := by
  unfold continues at h
  split at h
  · exact h
  · cases h

theorem correct (stretch : Int → Int) (hbase : Correct base Inv held) :
    Correct (searcher base stretch) (Batched Inv held) fun x => held x.baseSearcher := by
  refine ⟨?_, ?_, fun h => hbase.empty h.base⟩
  · intro x u now h hfits
    obtain ⟨y, hy, hinv, hheld⟩ := hbase.update now h.base hfits
    refine ⟨_, bind_eq_ok.mpr ⟨y, hy, rfl⟩, ⟨hinv, ?_⟩, hheld⟩
    intro s hs
    obtain ⟨hlast, hremoved⟩ := Option.filter_eq_some_iff.mp hs
    show s ∈ held y
    rw [hheld, mem_updated]
    exact ⟨.inl (h.last hlast), of_decide_eq_true hremoved⟩
  · intro x now h hne
    cases hcont : x.continues now with
    | some s =>
      have hselect : selectState base stretch now x = .ok (s, x) := by
        rw [selectState, hcont]
      exact ⟨s, x, hselect, h, rfl, h.last (continues_eq_some hcont)⟩
    | none =>
      obtain ⟨s, y, hy, hinv, hheld, hmem⟩ := hbase.select now h.base hne
      have hselect : selectState base stretch now x =
          .ok (s, (x.growBudget stretch now).start now s y) := by
        rw [selectState, hcont]
        exact bind_eq_ok.mpr ⟨_, hy, rfl⟩
      refine ⟨s, _, hselect, ⟨hinv, ?_⟩, hheld, hmem⟩
      intro s' hs'
      cases hs'
      show s ∈ held y
      rw [hheld]
      exact hmem

end BatchingSearcher

/-! ## Deepening -/

namespace IterativeDeepeningTimeSearcher

variable {held : σ → Finset StateRef} {live : Finset StateRef}
  {x : IterativeDeepeningTimeSearcher σ} {r : List StateRef × List StateRef}

theorem mem_filterPaused (removed : List StateRef) (hpaused : r.1.Nodup) :
    (s ∈ (filterPaused removed r).1 ↔ s ∈ r.1 ∧ s ∉ removed) ∧
    (s ∈ (filterPaused removed r).2 ↔ s ∈ r.2 ∧ ¬(s ∈ removed ∧ s ∈ r.1)) := by
  induction removed generalizing r with
  | nil => simp [filterPaused]
  | cons state rest ih =>
    obtain ⟨paused, alt⟩ := r
    rw [filterPaused]
    by_cases hstate : state ∈ paused
    · rw [if_pos hstate]
      obtain ⟨h1, h2⟩ := ih (r := (paused.erase state, alt.filter (· ≠ state)))
        (hpaused.erase state)
      rw [h1, h2, hpaused.mem_erase_iff]
      constructor
      · simp only [List.mem_cons]
        tauto
      · simp only [List.mem_filter, decide_eq_true_eq, List.mem_cons]
        by_cases heq : s = state
        · subst heq
          simp [hstate]
        · simp [heq]
    · rw [if_neg hstate]
      obtain ⟨h1, h2⟩ := ih (r := (paused, alt)) hpaused
      rw [h1, h2]
      simp only [List.mem_cons]
      by_cases heq : s = state
      · subst heq
        simp [hstate]
      · simp [heq]

theorem filterPaused_nodup (removed : List StateRef) (hpaused : r.1.Nodup) (halt : r.2.Nodup) :
    (filterPaused removed r).1.Nodup ∧ (filterPaused removed r).2.Nodup := by
  induction removed generalizing r with
  | nil => exact ⟨hpaused, halt⟩
  | cons state rest ih =>
    obtain ⟨paused, alt⟩ := r
    rw [filterPaused]
    split
    · exact ih (hpaused.erase state) (halt.filter _)
    · exact ih hpaused halt

/-- The live states are those of the wrapped searcher and the paused ones. -/
structure Kept (Inv : σ → Prop) (held : σ → Finset StateRef) (live : Finset StateRef)
    (x : IterativeDeepeningTimeSearcher σ) : Prop where
  base : Inv x.baseSearcher
  nodup : x.pausedStates.Nodup
  disjoint : ∀ {s}, s ∈ held x.baseSearcher → s ∉ x.pausedStates
  live : ∀ {s}, s ∈ live ↔ s ∈ held x.baseSearcher ∨ s ∈ x.pausedStates

section Operations

variable (now : Now) (hbase : Correct base Inv held) (h : Kept Inv held live x)
include hbase h

theorem pauseCurrent_spec (elapsed : Int)
    (hcurrent : ∀ {s}, u.current = some s → s ∉ u.removedStates → s ∈ held x.baseSearcher) :
    ∃ x', pauseCurrent base now u elapsed x = .ok x' ∧ Kept Inv held live x' ∧
      ∀ {s}, s ∈ held x.baseSearcher → u.current ≠ some s → s ∈ held x'.baseSearcher := by
  unfold pauseCurrent
  cases hc : u.current with
  | none => exact ⟨x, rfl, h, fun hs _ => hs⟩
  | some current =>
    dsimp only
    split
    next hpause =>
      have hmem := hcurrent hc hpause.1
      have hfits : Fits (held x.baseSearcher) ⟨none, [], [current]⟩ := by
        refine ⟨nofun, List.nodup_nil, nofun, List.nodup_singleton _, fun hs => .inl ?_⟩
        rw [List.mem_singleton.mp hs]
        exact hmem
      obtain ⟨y, hy, hinv, hheld⟩ := hbase.update now h.base hfits
      have hmem_y : ∀ {s}, s ∈ held y ↔ s ∈ held x.baseSearcher ∧ s ≠ current := by
        intro s
        rw [hheld, mem_updated]
        simp
      refine ⟨_, bind_eq_ok.mpr ⟨y, hy, rfl⟩, ⟨hinv, h.nodup.insert, ?_, ?_⟩, ?_⟩
      · intro s hs
        obtain ⟨hs, hne⟩ := hmem_y.mp hs
        rw [List.mem_insert_iff]
        exact not_or.mpr ⟨hne, h.disjoint hs⟩
      · intro s
        rw [h.live, hmem_y, List.mem_insert_iff]
        by_cases heq : s = current
        · subst heq
          simp [hmem]
        · simp [heq]
      · intro s hs hne
        exact hmem_y.mpr ⟨hs, fun heq => hne (heq ▸ rfl)⟩
    next => exact ⟨x, rfl, h, fun hs _ => hs⟩

theorem refill_spec : ∃ x', refill base now x = .ok x' ∧ Kept Inv held live x' ∧
      (held x'.baseSearcher = ∅ → live = ∅) ∧
      ∀ {s}, s ∈ held x.baseSearcher → s ∈ held x'.baseSearcher := by
  unfold refill
  split
  next hempty =>
    rw [hbase.empty h.base] at hempty
    have hfits : Fits (held x.baseSearcher) ⟨none, x.pausedStates, []⟩ := by
      refine ⟨nofun, h.nodup, fun _ => ?_, List.nodup_nil, nofun⟩
      rw [hempty]
      exact Finset.notMem_empty _
    obtain ⟨y, hy, hinv, hheld⟩ := hbase.update now h.base hfits
    have hmem : ∀ {s}, s ∈ held y ↔ s ∈ live := by
      intro s
      rw [hheld, mem_updated, h.live]
      simp
    refine ⟨_, bind_eq_ok.mpr ⟨y, hy, rfl⟩, ⟨hinv, List.nodup_nil, ?_, ?_⟩, ?_, ?_⟩
    · intro s _
      exact List.not_mem_nil
    · intro s
      rw [hmem]
      simp
    · intro hnone
      refine Finset.eq_empty_of_forall_notMem fun s hs => ?_
      have hs' := hmem.mpr hs
      rw [hnone] at hs'
      exact Finset.notMem_empty s hs'
    · intro s hs
      rw [hempty] at hs
      exact absurd hs (Finset.notMem_empty s)
  next hempty =>
    refine ⟨x, rfl, h, fun hnone => ?_, id⟩
    exact absurd ((hbase.empty h.base).mpr hnone) hempty

/-- An update of the live states. -/
theorem update_spec (hfits : Fits live u)
    (hcurrent : ∀ {s}, u.current = some s → s ∈ held x.baseSearcher) :
    ∃ x', update base now u x = .ok x' ∧ Kept Inv held (updated live u) x' ∧
      (held x'.baseSearcher = ∅ → updated live u = ∅) ∧
      ∀ {s}, s ∈ held x.baseSearcher → s ∉ u.removedStates → u.current ≠ some s →
        s ∈ held x'.baseSearcher := by
  obtain ⟨hpaused_nodup, halt_nodup⟩ := filterPaused_nodup u.removedStates
    (r := (x.pausedStates, u.removedStates)) h.nodup hfits.removed_nodup
  have hpaused := fun s => (mem_filterPaused u.removedStates (s := s)
    (r := (x.pausedStates, u.removedStates)) h.nodup).1
  have halt := fun s => (mem_filterPaused u.removedStates (s := s)
    (r := (x.pausedStates, u.removedStates)) h.nodup).2
  have hfits1 : Fits (held x.baseSearcher) { u with
      removedStates := (filterPaused u.removedStates (x.pausedStates, u.removedStates)).2 } := by
    refine ⟨hcurrent, hfits.added_nodup, fun hs hheld => ?_, halt_nodup, fun hs => ?_⟩
    · exact hfits.added hs (h.live.mpr (.inl hheld))
    · obtain ⟨hremoved, hnot⟩ := (halt _).mp hs
      exact (hfits.removed hremoved).imp_left fun hlive =>
        (h.live.mp hlive).resolve_right fun hp => hnot ⟨hremoved, hp⟩
  obtain ⟨y, hy, hinv, hheld⟩ := hbase.update now h.base hfits1
  have hmem : ∀ {s}, s ∈ held y ↔
      (s ∈ held x.baseSearcher ∨ s ∈ u.addedStates) ∧ s ∉ u.removedStates := by
    intro s
    rw [hheld, mem_updated, halt]
    constructor
    · rintro ⟨hs, hnot⟩
      refine ⟨hs, fun hremoved => hnot ⟨hremoved, fun hp => ?_⟩⟩
      rcases hs with hs | hs
      · exact h.disjoint hs hp.2
      · exact hfits.added hs (h.live.mpr (.inr hp.2))
    · rintro ⟨hs, hnot⟩
      exact ⟨hs, fun hr => hnot hr.1⟩
  have h1 : Kept Inv held (updated live u) { x with
      baseSearcher := y
      pausedStates :=
        (filterPaused u.removedStates (x.pausedStates, u.removedStates)).1 } := by
    refine ⟨hinv, hpaused_nodup, fun {s} hs hp => ?_, fun {s} => ?_⟩
    · obtain ⟨hs, -⟩ := hmem.mp hs
      obtain ⟨hp, -⟩ := (hpaused s).mp hp
      rcases hs with hs | hs
      · exact h.disjoint hs hp
      · exact hfits.added hs (h.live.mpr (.inr hp))
    · rw [mem_updated, h.live, hmem, hpaused]
      tauto
  obtain ⟨x2, hx2, h2, hkeep2⟩ := pauseCurrent_spec (u := u) now hbase h1
    (now.wallTime - x.startTime)
    fun hc hnot => hmem.mpr ⟨.inl (hcurrent hc), hnot⟩
  obtain ⟨x3, hx3, h3, hempty, hkeep3⟩ := refill_spec now hbase h2
  refine ⟨x3, ?_, h3, hempty, fun hs hnot hc => hkeep3 (hkeep2 (hmem.mpr ⟨.inl hs, hnot⟩) hc)⟩
  refine bind_eq_ok.mpr ⟨y, hy, ?_⟩
  exact bind_eq_ok.mpr ⟨x2, hx2, hx3⟩

theorem select_spec (hne : (held x.baseSearcher).Nonempty) :
    ∃ s x', selectState base now x = .ok (s, x') ∧ Kept Inv held live x' ∧
      held x'.baseSearcher = held x.baseSearcher ∧ s ∈ held x'.baseSearcher := by
  obtain ⟨s, y, hy, hinv, hheld, hmem⟩ := hbase.select now h.base hne
  refine ⟨s, _, bind_eq_ok.mpr ⟨_, hy, rfl⟩, ⟨hinv, h.nodup, ?_, ?_⟩, hheld, ?_⟩
  · intro s hs
    exact h.disjoint (hheld ▸ hs)
  · intro s
    rw [h.live]
    show _ ↔ s ∈ held y ∨ _
    rw [hheld]
  · show s ∈ held y
    rw [hheld]
    exact hmem

end Operations

end IterativeDeepeningTimeSearcher

/-! ## Both together -/

open IterativeDeepeningTimeSearcher (Kept)

/-- The executor and its searchers: it asks for a state, and reports what has become
of the states. The state that it has asked for is the current one until it is
reported or removed. -/
structure Driven (σ : Type) where
  searcher : IterativeDeepeningTimeSearcher (BatchingSearcher σ)
  live : Finset StateRef
  current : Option StateRef

/-- What the executor does with the searcher. -/
inductive Op
  | select (now : Now)
  | update (now : Now) (reportsCurrent : Bool) (addedStates removedStates : List StateRef)

section

variable (base : Searcher σ) (stretch : Int → Int)

/-- Iterative deepening over batches over the base searcher. -/
def stack : Searcher (IterativeDeepeningTimeSearcher (BatchingSearcher σ)) :=
  IterativeDeepeningTimeSearcher.searcher (BatchingSearcher.searcher base stretch)

/-- The executor remembers the live states and the current one. -/
def Op.apply (x : Driven σ) : Op → Except Abort (Driven σ)
  | .select now => do
    let (s, searcher) ← (stack base stretch).selectState now x.searcher
    return { x with searcher := searcher, current := some s }
  | .update now reportsCurrent added removed => do
    let u : SearcherUpdate := ⟨if reportsCurrent then x.current else none, added, removed⟩
    let searcher ← (stack base stretch).update now u x.searcher
    return { searcher := searcher
             live := updated x.live u
             current := if reportsCurrent then none
               else x.current.filter fun s => s ∉ removed }

/-- New states are new, states that are removed are there, and a state is asked for
only if there is one. -/
def Op.Valid (x : Driven σ) : Op → Prop
  | .select _ => x.live.Nonempty
  | .update _ _ added removed => added.Nodup ∧ (∀ s ∈ added, s ∉ x.live) ∧ removed.Nodup ∧
      ∀ s ∈ removed, s ∈ x.live ∨ s ∈ added

/-- Every operation is one that the executor makes. -/
def ValidRun : Driven σ → List Op → Prop
  | _, [] => True
  | x, op :: ops => op.Valid x ∧ ∀ x', op.apply base stretch x = .ok x' → ValidRun x' ops

/-- A run of operations. -/
def run (x : Driven σ) (ops : List Op) : Except Abort (Driven σ) :=
  ops.foldlM (Op.apply base stretch) x

end

variable {held : σ → Finset StateRef}

/-- The states of the innermost searcher. -/
def Driven.inBase (held : σ → Finset StateRef) (x : Driven σ) : Finset StateRef :=
  held x.searcher.baseSearcher.baseSearcher

/-- What every operation keeps. -/
structure Sound (Inv : σ → Prop) (held : σ → Finset StateRef) (x : Driven σ) : Prop where
  kept : Kept (BatchingSearcher.Batched Inv held) (fun b => held b.baseSearcher) x.live
    x.searcher
  filled : x.inBase held = ∅ → x.live = ∅
  current : ∀ {s}, x.current = some s → s ∈ x.inBase held

theorem Sound.apply (stretch : Int → Int) {x : Driven σ} {op : Op} (hbase : Correct base Inv held)
    (h : Sound Inv held x) (hvalid : op.Valid x) :
    ∃ x', op.apply base stretch x = .ok x' ∧ Sound Inv held x' := by
  have hbatch := BatchingSearcher.correct stretch hbase
  cases op with
  | select now =>
    have hne : (x.inBase held).Nonempty := by
      rw [Finset.nonempty_iff_ne_empty]
      intro hnone
      exact hvalid.ne_empty (h.filled hnone)
    obtain ⟨s, y, hy, hkept, hheld, hmem⟩ :=
      IterativeDeepeningTimeSearcher.select_spec now hbatch h.kept hne
    refine ⟨_, bind_eq_ok.mpr ⟨_, hy, rfl⟩, hkept, fun hnone => h.filled ?_, ?_⟩
    · exact hheld.symm.trans hnone
    · intro s' hs'
      cases hs'
      exact hmem
  | update now reportsCurrent added removed =>
    obtain ⟨hnodup, hadded, hnodup', hremoved⟩ := hvalid
    have hcurrent : ∀ {s}, (if reportsCurrent then x.current else none) = some s →
        s ∈ x.inBase held := by
      intro s hs
      split at hs
      · exact h.current hs
      · cases hs
    have hfits : Fits x.live
        ⟨if reportsCurrent then x.current else none, added, removed⟩ :=
      ⟨fun hs => h.kept.live.mpr (.inl (hcurrent hs)), hnodup, fun hs => hadded _ hs, hnodup',
        fun hs => hremoved _ hs⟩
    obtain ⟨y, hy, hkept, hfilled, hkeep⟩ :=
      IterativeDeepeningTimeSearcher.update_spec now hbatch h.kept hfits hcurrent
    refine ⟨_, bind_eq_ok.mpr ⟨y, hy, rfl⟩, hkept, hfilled, fun {s} hs => ?_⟩
    cases reportsCurrent with
    | true => cases hs
    | false =>
      obtain ⟨hs, hnot⟩ := Option.filter_eq_some_iff.mp hs
      exact hkeep (h.current hs) (of_decide_eq_true hnot) nofun

theorem Sound.run {x : Driven σ} {ops : List Op} (hbase : Correct base Inv held)
    (h : Sound Inv held x) (hvalid : ValidRun base stretch x ops) :
    ∃ x', run base stretch x ops = .ok x' ∧ Sound Inv held x' := by
  induction ops generalizing x with
  | nil => exact ⟨x, rfl, h⟩
  | cons op ops ih =>
    obtain ⟨x1, h1, hsound1⟩ := h.apply stretch hbase hvalid.1
    obtain ⟨x', hx', hsound'⟩ := ih hsound1 (hvalid.2 x1 h1)
    refine ⟨x', ?_, hsound'⟩
    rw [Searchers.run, List.foldlM_cons]
    exact bind_eq_ok.mpr ⟨x1, h1, hx'⟩

/-- The searchers before they have seen a state. -/
def Driven.create (baseSearcher : σ) (timeBudget : Int) (instructionBudget : Nat) :
    Driven σ where
  searcher := .create (.create baseSearcher timeBudget instructionBudget)
  live := ∅
  current := none

/-- Whatever the base searcher is, it and the paused states share out the live ones. -/
theorem run_partition (base : Searcher σ) (stretch : Int → Int) (Inv : σ → Prop)
    (held : σ → Finset StateRef) (hbase : Correct base Inv held) (baseSearcher : σ)
    (hinv : Inv baseSearcher) (hnone : held baseSearcher = ∅) (timeBudget : Int)
    (instructionBudget : Nat) (ops : List Op)
    (hvalid : ValidRun base stretch
      (.create baseSearcher timeBudget instructionBudget) ops) :
    ∃ x, run base stretch (.create baseSearcher timeBudget instructionBudget) ops = .ok x ∧
      Disjoint (x.inBase held) x.searcher.pausedStates.toFinset ∧
      x.inBase held ∪ x.searcher.pausedStates.toFinset = x.live ∧
      ∀ s, x.searcher.baseSearcher.lastState = some s → s ∈ x.live ∧ s ∈ x.inBase held := by
  have hcreate : Sound Inv held (.create baseSearcher timeBudget instructionBudget) := by
    refine ⟨⟨⟨hinv, nofun⟩, List.nodup_nil, fun _ => List.not_mem_nil, fun {s} => ?_⟩,
      fun _ => rfl, nofun⟩
    show s ∈ (∅ : Finset StateRef) ↔ s ∈ held baseSearcher ∨ s ∈ []
    rw [hnone]
    simp
  obtain ⟨x, hrun, h⟩ := hcreate.run hbase hvalid
  refine ⟨x, hrun, ?_, ?_, fun s hs => ?_⟩
  · rw [Finset.disjoint_left]
    intro s hs
    rw [List.mem_toFinset]
    exact h.kept.disjoint hs
  · ext s
    rw [Finset.mem_union, List.mem_toFinset, h.kept.live]
    exact Iff.rfl
  · have hmem := h.kept.base.last hs
    exact ⟨h.kept.live.mpr (.inl hmem), hmem⟩

theorem run_partition_dfs : ∃ x,
    run DFSSearcher.searcher id (.create [] 0 1)
      [.update ⟨0, 0⟩ false [0, 1] [], .select ⟨1, 1⟩,
        .update ⟨2000000000000, 2⟩ true [2] [0]] = .ok x ∧
      Disjoint (x.inBase List.toFinset) x.searcher.pausedStates.toFinset ∧
      x.inBase List.toFinset ∪ x.searcher.pausedStates.toFinset = x.live ∧
      ∀ s, x.searcher.baseSearcher.lastState = some s →
        s ∈ x.live ∧ s ∈ x.inBase List.toFinset := by
  refine run_partition DFSSearcher.searcher id List.Nodup List.toFinset DFSSearcher.correct []
    List.nodup_nil rfl 0 1 _ ⟨⟨by decide, nofun, List.nodup_nil, nofun⟩, fun x1 h1 => ?_⟩
  cases h1
  refine ⟨⟨0, by decide⟩, fun x2 h2 => ?_⟩
  cases h2
  exact ⟨⟨by decide, by decide, by decide, by decide⟩, fun _ _ => trivial⟩

end VitalSE.Searchers
