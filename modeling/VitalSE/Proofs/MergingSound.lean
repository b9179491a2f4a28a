import VitalSE.Proofs.MergePointsSound

/-!
# What the merging searcher passes on

The searcher under the merging searcher should hold the states that are not paused.
Pausing a state and letting a handler's states go keep that, and so does an update
if its current state is not paused, or nothing is added or removed, and none of the
removed states is paused. Any other update breaks it: it is not passed on, or the
removed state stays with the paused ones.
-/

namespace VitalSE.Searchers

variable {σ : Type} {useIncompleteMerge : Bool} {s : StateRef} {base : Searcher σ}
  {Inv : σ → Prop} {held : σ → Finset StateRef} {x : Merging σ}

namespace Merging

section

variable {now : Now} {h : HandlerRef} {m : MergeHandler}

/-- The update that is about to be reported can be passed on: its current state is not
paused, or there is nothing to report, and no paused state is removed. -/
def Reportable (x : Merging σ) : Prop :=
  (∀ s, x.current = some s → s ∈ x.mergingSearcher.pausedStates →
    x.addedStates = [] ∧ x.removedStates = []) ∧
  ∀ s ∈ x.removedStates, s ∉ x.mergingSearcher.pausedStates

/-- The states after the report. -/
def reported (x : Merging σ) : Finset StateRef :=
  (x.states ∪ x.addedStates.toFinset) \ x.removedStates.toFinset

theorem mem_reported : s ∈ x.reported ↔
    (s ∈ x.states ∨ s ∈ x.addedStates) ∧ s ∉ x.removedStates := by
  unfold reported
  rw [Finset.mem_sdiff, Finset.mem_union, List.mem_toFinset, List.mem_toFinset]

/-- Among the states that wait for one another there is one that does not wait: the one
with the innermost handler. -/
theorem Sound.nonempty (hx : Sound Inv held [] x) (hadded : x.addedStates = [])
    (hdeleted : x.deletedStates = []) (hne : x.states.Nonempty) :
    (held x.mergingSearcher.baseSearcher).Nonempty := by
  by_contra hnone
  have hall : ∀ {s}, s ∈ x.states → s ∈ x.mergingSearcher.pausedStates := fun hs =>
    (hx.exact.live.mp hs).resolve_left fun hheld => hnone ⟨_, hheld⟩
  -- Every handler at which a state waits is below another one.
  have hnext : ∀ k h m, x.nextHandler - h = k → x.mergeHandlers h = some m → False := by
    intro k
    induction k using Nat.strong_induction_on with
    | h k ih =>
      intro h m hk hm
      have hopen : m.openStates ≠ [] := by
        intro hnil
        have hcount := hx.handlers.count hm
        have hpos := hx.handlers.pos hm
        rw [hnil] at hcount
        rw [hcount] at hpos
        exact absurd hpos (lt_irrefl 0)
      obtain ⟨t, ht⟩ := List.exists_mem_of_ne_nil _ hopen
      obtain ⟨hpresent, hmem⟩ := (hx.handlers.open_iff hm).mp ht
      unfold Present at hpresent
      rw [hadded, hdeleted] at hpresent
      have hstates : t ∈ x.states := hpresent.resolve_right (by simp)
      obtain ⟨h', m', hm', ht'⟩ := hx.waits.paused.mp (hall hstates)
      have hlt := hx.waits.inner hm' ht' hmem
      have hbound := hx.handlers.bound hm'
      refine ih (x.nextHandler - h') ?_ h' m' rfl hm'
      rw [← hk]
      exact Nat.sub_lt_sub_left (hlt.trans hbound) hlt
  obtain ⟨s, hs⟩ := hne
  obtain ⟨h, m, hm, -⟩ := hx.waits.paused.mp (hall hs)
  exact hnext _ h m rfl hm

section

variable (hbase : Correct base Inv held) (hx : Sound Inv held [] x)

include hbase hx

theorem Sound.selectBase (hne : (held x.mergingSearcher.baseSearcher).Nonempty) :
    Runs (selectBase base now) x fun s x' => Sound Inv held [] x' ∧ Within x x' ∧
      s ∈ x'.states := by
  obtain ⟨s, b, hb, hinv, hheld, hs⟩ := hbase.select now hx.exact.base hne
  have hselect : x.mergingSearcher.selectBase base now =
      .ok (s, { x.mergingSearcher with baseSearcher := b }) :=
    Except.bind_eq_ok.mpr ⟨_, hb, rfl⟩
  refine .get_bind (.except_bind hselect ⟨s, _, rfl, ⟨?_, hx.lists.keep,
    hx.handlers.of_eq rfl rfl rfl rfl fun _ => Iff.rfl, hx.waits.of_eq rfl rfl rfl rfl⟩,
    ⟨_, _, rfl⟩, hx.exact.live.mpr (.inl hs)⟩)
  refine ⟨hinv, hx.exact.nodup, fun ht => hx.exact.disjoint (hheld ▸ ht), fun {t} => ?_⟩
  show _ ↔ t ∈ held b ∨ _
  rw [hheld]
  exact hx.exact.live

theorem Sound.prioritize {groups : List HandlerRef} (hadded : x.addedStates = [])
    (hdeleted : x.deletedStates = []) (hne : x.states.Nonempty)
    (hgroups : ∀ h ∈ groups, h ∈ x.mergingSearcher.mergeGroups) :
    Runs (prioritize base now groups) x fun s x' => Sound Inv held [] x' ∧ Within x x' ∧
      s ∈ x'.states := by
  induction groups generalizing x with
  | nil => exact hx.selectBase hbase (hx.nonempty hadded hdeleted hne)
  | cons h rest ih =>
    obtain ⟨m, hm⟩ := hx.handlers.groups.mp (hgroups h List.mem_cons_self)
    have hrest : ∀ h' ∈ rest, h' ∈ x.mergingSearcher.mergeGroups :=
      fun h' hh' => hgroups h' (List.mem_cons_of_mem h hh')
    refine mergeHandler_bind hm ?_
    by_cases hmerged : m.hasMergedStates = true
    · rw [if_pos hmerged]
      refine .get_bind ?_
      cases hfind : getPrioritizeState x m with
      | some es =>
        have hopen := List.mem_of_find?_eq_some hfind
        have hpresent := ((hx.handlers.open_iff hm).mp hopen).1
        unfold Present at hpresent
        rw [hadded, hdeleted] at hpresent
        exact .pure ⟨hx, ⟨x.mergingSearcher, x.mergeHandlers, rfl⟩,
          hpresent.resolve_right (by simp)⟩
      | none =>
        refine .bind (hx.releaseStates hbase hm) ?_
        intro _ x1 ⟨hx1, hwithin, hgroups1⟩
        have hlists : x1.addedStates = [] ∧ x1.deletedStates = [] ∧ x1.states.Nonempty := by
          obtain ⟨y, f, rfl⟩ := hwithin
          exact ⟨hadded, hdeleted, hne⟩
        refine (ih hx1 hlists.1 hlists.2.1 hlists.2.2 (hgroups1 ▸ hrest)).imp ?_
        intro s x' ⟨hx', hwithin', hs⟩
        exact ⟨hx', hwithin.trans hwithin', hs⟩
    · rw [if_neg hmerged]
      exact ih hx hadded hdeleted hne hrest

theorem Sound.selectState (hadded : x.addedStates = []) (hdeleted : x.deletedStates = [])
    (hne : x.states.Nonempty) :
    Runs (selectState base now useIncompleteMerge) x fun s x' => Sound Inv held [] x' ∧
      Within x x' ∧ s ∈ x'.states := by
  have hheld := hx.nonempty hadded hdeleted hne
  have hempty : ¬ base.empty x.mergingSearcher.baseSearcher = true := by
    rw [hbase.empty hx.exact.base]
    exact hheld.ne_empty
  refine .get_bind ?_
  rw [if_neg hempty]
  split
  · exact hx.prioritize hbase hadded hdeleted hne fun _ hh => hh
  · exact hx.selectBase hbase hheld

theorem Sound.update (now : Now) (hreport : x.Reportable) :
    ∃ b, MergingSearcher.update base now ⟨x.current, x.addedStates, x.removedStates⟩
        x.mergingSearcher = .ok { x.mergingSearcher with baseSearcher := b } ∧
      MergingSearcher.Exact Inv held x.reported
        { x.mergingSearcher with baseSearcher := b } := by
  have hexact := hx.exact
  have hlists := hx.lists
  unfold MergingSearcher.update
  by_cases hpaused : ∃ s ∈ x.current, s ∈ x.mergingSearcher.pausedStates
  · obtain ⟨s, hs, hmem⟩ := hpaused
    obtain ⟨hadded, hremoved⟩ := hreport.1 s hs hmem
    refine ⟨x.mergingSearcher.baseSearcher, by rw [if_pos ⟨s, hs, hmem⟩]; rfl, ?_⟩
    refine ⟨hexact.base, hexact.nodup, hexact.disjoint, fun {t} => ?_⟩
    rw [mem_reported, hadded, hremoved]
    simpa using hexact.live
  · rw [if_neg hpaused]
    have hfits : Fits (held x.mergingSearcher.baseSearcher)
        ⟨x.current, x.addedStates, x.removedStates⟩ := by
      refine ⟨fun hs => ?_, hlists.added_nodup, fun hs hheld => ?_, hlists.removed_nodup,
        fun {t} ht => .inl ?_⟩
      · exact (hexact.live.mp (hlists.current hs)).resolve_right fun hmem =>
          hpaused ⟨_, hs, hmem⟩
      · exact (hlists.added hs).1 (hexact.live.mpr (.inl hheld))
      · exact (hexact.live.mp (hlists.removed ht)).resolve_right (hreport.2 t ht)
    obtain ⟨b, hb, hinv, hheld⟩ := hbase.update now hexact.base hfits
    have hmem : ∀ {t}, t ∈ held b ↔ (t ∈ held x.mergingSearcher.baseSearcher ∨
        t ∈ x.addedStates) ∧ t ∉ x.removedStates := fun {t} => by rw [hheld, mem_updated]
    refine ⟨b, Except.bind_eq_ok.mpr ⟨b, hb, rfl⟩, hinv, hexact.nodup, fun {t} ht hp => ?_,
      fun {t} => ?_⟩
    · obtain ht | ht := (hmem.mp ht).1
      · exact hexact.disjoint ht hp
      · exact (hlists.added ht).1 (hexact.live.mpr (.inr hp))
    · rw [mem_reported, hexact.live, hmem]
      have hkeep := hreport.2 t
      show _ ↔ _ ∨ t ∈ x.mergingSearcher.pausedStates
      tauto

theorem Sound.updateStates (hdeleted : x.deletedStates = []) (hreport : x.Reportable) :
    Runs (updateStates base now) x fun _ x' => Sound Inv held [] x' := by
  have hlists := hx.lists
  obtain ⟨b, hb, hexact⟩ := hx.update hbase now hreport
  refine .get_bind (.bind (P := fun _ x' => x' = { x with
    mergingSearcher := { x.mergingSearcher with baseSearcher := b } })
    (onSearcher_spec hb rfl) ?_)
  intro _ x1 hx1
  subst hx1
  refine ⟨⟨⟩, _, rfl, hexact, ⟨List.nodup_nil, nofun, List.nodup_nil, nofun,
    hlists.removed_nodup, fun {t} ht ht' => ?_, nofun⟩,
    hx.handlers.of_eq rfl rfl rfl rfl fun t => ?_, hx.waits.of_eq rfl rfl rfl rfl⟩
  · exact (mem_reported.mp ht').2 ht
  · unfold Present
    rw [hdeleted]
    show t ∈ x.reported ∨ t ∈ [] ∨ t ∈ x.removedStates ↔ _
    rw [mem_reported]
    have hremoved := hlists.removed (s := t)
    simp only [List.not_mem_nil, or_false, false_or]
    tauto

end

/-- An update that cannot be passed on goes wrong. -/
theorem Sound.not_exact (hx : Sound Inv held [] x) (hnot : ¬ x.Reportable) {y : MergingSearcher σ}
    (hy : MergingSearcher.update base now ⟨x.current, x.addedStates, x.removedStates⟩
      x.mergingSearcher = .ok y) :
    ¬ ∀ t, t ∈ x.reported ↔ t ∈ held y.baseSearcher ∨ t ∈ y.pausedStates := by
  intro hlive
  have hlists := hx.lists
  unfold MergingSearcher.update at hy
  by_cases hpaused : ∃ s ∈ x.current, s ∈ x.mergingSearcher.pausedStates
  · rw [if_pos hpaused] at hy
    cases hy
    have hsame : ∀ {t}, t ∈ x.reported ↔ t ∈ x.states :=
      fun {t} => (hlive t).trans hx.exact.live.symm
    have hadded : x.addedStates = [] := by
      refine List.eq_nil_iff_forall_not_mem.mpr fun t ht => ?_
      have hfresh := (hlists.added ht).1
      exact hfresh (hsame.mp (mem_reported.mpr
        ⟨.inr ht, fun hremoved => hfresh (hlists.removed hremoved)⟩))
    have hremoved : x.removedStates = [] := by
      refine List.eq_nil_iff_forall_not_mem.mpr fun t ht => ?_
      exact (mem_reported.mp (hsame.mpr (hlists.removed ht))).2 ht
    exact hnot ⟨fun _ _ _ => ⟨hadded, hremoved⟩, fun s hs => by rw [hremoved] at hs; cases hs⟩
  · rw [if_neg hpaused] at hy
    obtain ⟨b, -, hb⟩ := Except.bind_eq_ok.mp hy
    cases hb
    refine hnot ⟨fun s hs hmem => absurd ⟨s, hs, hmem⟩ hpaused, fun s hs hmem => ?_⟩
    exact (mem_reported.mp ((hlive s).mpr (.inr hmem))).2 hs

end

/-! ## Runs -/

/-- What the executor does. -/
inductive Op
  | select (now : Now)
  /-- The current state executes an instruction. -/
  | step
  | openMerge
  | closeMerge (now : Now) (merges : StateRef → Bool) (mp : MergePoint)
  | branch (t : StateRef)
  | terminate (now : Now) (s : StateRef)
  | updateStates (now : Now)
  | deleteStates (now : Now)

section

variable (base : Searcher σ) (useIncompleteMerge : Bool)

/-- The state has executed an instruction. -/
def stepInstruction (s : StateRef) : MergeM σ Unit :=
  modify fun x => { x with
    steppedInstructions :=
      Function.update x.steppedInstructions s (x.steppedInstructions s + 1) }

/-- The action of the current state. -/
def act (f : StateRef → MergeM σ Unit) : MergeM σ Unit := do
  match (← get).current with
  | some s => f s
  | none => throw (.undefined "no state is selected")

/-- What an operation of the executor does. -/
def Op.run : Op → MergeM σ Unit
  | .select now => do
    let s ← selectState base now useIncompleteMerge
    modify fun x => { x with current := some s }
  | .step => act stepInstruction
  | .openMerge => act handleOpenMerge
  | .closeMerge now merges mp => act fun s => handleCloseMerge base now merges s mp
  | .branch t => act fun s => Searchers.branch s t
  | .terminate now s => terminateState base now s
  | .updateStates now => Searchers.updateStates base now
  | .deleteStates now => do
    Searchers.deleteStates base now (← get).deletedStates

/-- The current state can execute an instruction: it has not been terminated, and it does
not wait. -/
def CanAct (x : Merging σ) : Prop :=
  ∃ s, x.current = some s ∧ s ∉ x.removedStates ∧ s ∉ x.mergingSearcher.pausedStates

/-- A state is selected when there is one, and when all is reported; new states are new;
what is terminated is there, and is terminated once; before anything else is done, the
removed states are deleted. -/
def Op.Valid (x : Merging σ) : Op → Prop
  | .select _ => x.states.Nonempty ∧ x.addedStates = [] ∧ x.removedStates = [] ∧
      x.deletedStates = []
  | .step => x.CanAct
  | .openMerge => x.CanAct
  | .closeMerge _ _ _ => x.CanAct
  | .branch t => x.CanAct ∧ ¬ x.Present t
  | .terminate _ s => (s ∈ x.states ∨ s ∈ x.addedStates) ∧ s ∉ x.removedStates
  | .updateStates _ => x.deletedStates = []
  | .deleteStates _ => True

/-- The searcher may be told of the removed states. -/
def Op.Reportable (x : Merging σ) : Op → Prop
  | .updateStates _ => x.Reportable
  | _ => True

/-- The condition `P` holds before every step of the run. -/
def Along (P : Merging σ → Op → Prop) : Merging σ → List Op → Prop
  | _, [] => True
  | x, op :: ops => P x op ∧
      ∀ x', op.run base useIncompleteMerge x = .ok (⟨⟩, x') → Along P x' ops

/-- The wrapped searcher holds the states that are not paused, and the selected state is
one of the states. -/
def HoldsLive (held : σ → Finset StateRef) (x : Merging σ) : Prop :=
  held x.mergingSearcher.baseSearcher = x.states \ x.mergingSearcher.pausedStates.toFinset ∧
  (∀ s ∈ x.mergingSearcher.pausedStates, s ∈ x.states) ∧
  ∀ s, x.current = some s → s ∈ x.states

/-- All steps of the run return, and the searcher holds what it should all the time. -/
def AlwaysHoldsLive (held : σ → Finset StateRef) : Merging σ → List Op → Prop
  | x, [] => x.HoldsLive held
  | x, op :: ops => x.HoldsLive held ∧
      ∃ x', op.run base useIncompleteMerge x = .ok (⟨⟩, x') ∧ AlwaysHoldsLive held x' ops

instance {x : Merging σ} {s : StateRef} : Decidable (x.Present s) :=
  inferInstanceAs (Decidable (s ∈ x.states ∨ s ∈ x.addedStates ∨ s ∈ x.deletedStates))

instance {x : Merging σ} : Decidable x.CanAct :=
  inferInstanceAs (Decidable (∃ s ∈ x.current,
    s ∉ x.removedStates ∧ s ∉ x.mergingSearcher.pausedStates))

instance {x : Merging σ} : (op : Op) → Decidable (op.Valid x)
  | .select _ => inferInstanceAs (Decidable (_ ∧ _))
  | .step | .openMerge | .closeMerge _ _ _ => inferInstanceAs (Decidable x.CanAct)
  | .branch _ | .terminate _ _ => inferInstanceAs (Decidable (_ ∧ _))
  | .updateStates _ => inferInstanceAs (Decidable (_ = _))
  | .deleteStates _ => inferInstanceAs (Decidable True)

instance {x : Merging σ} : Decidable x.Reportable :=
  inferInstanceAs (Decidable ((∀ s ∈ x.current, s ∈ x.mergingSearcher.pausedStates →
    x.addedStates = [] ∧ x.removedStates = []) ∧
      ∀ s ∈ x.removedStates, s ∉ x.mergingSearcher.pausedStates))

instance {x : Merging σ} : (op : Op) → Decidable (op.Reportable x)
  | .updateStates _ => inferInstanceAs (Decidable x.Reportable)
  | .select _ | .step | .openMerge | .closeMerge _ _ _ | .branch _ | .terminate _ _
  | .deleteStates _ => inferInstanceAs (Decidable True)

instance decidableAlong {P : Merging σ → Op → Prop} [∀ x op, Decidable (P x op)] :
    (x : Merging σ) → (ops : List Op) → Decidable (Along base useIncompleteMerge P x ops)
  | _, [] => isTrue trivial
  | x, op :: ops =>
    match hrun : op.run base useIncompleteMerge x with
    | .ok (⟨⟩, x1) =>
      have := decidableAlong (P := P) x1 ops
      decidable_of_iff (P x op ∧ Along base useIncompleteMerge P x1 ops)
        (and_congr_right fun _ => ⟨fun h x2 hrun2 => by
          rw [hrun] at hrun2
          cases hrun2
          exact h, fun h => h x1 hrun⟩)
    | .error e => decidable_of_iff (P x op)
        ⟨fun h => ⟨h, fun x2 hrun2 => by
          rw [hrun] at hrun2
          cases hrun2⟩, fun h => h.1⟩

/-- Before the states have been reported to the searcher. -/
def create (baseSearcher : σ) (newStates : List StateRef) : Merging σ where
  mergingSearcher := ⟨baseSearcher, [], [], ∅⟩
  mergeHandlers _ := none
  nextHandler := 0
  openMergeStack _ := []
  steppedInstructions _ := 0
  states := ∅
  addedStates := newStates
  removedStates := []
  deletedStates := []
  current := none

end

section

variable {op : Op}

theorem Sound.holdsLive (hx : Sound Inv held [] x) : x.HoldsLive held := by
  refine ⟨?_, fun s hs => hx.exact.live.mpr (.inr hs), fun s hs => hx.lists.current hs⟩
  ext s
  rw [Finset.mem_sdiff, List.mem_toFinset, hx.exact.live]
  have hdisjoint := hx.exact.disjoint (s := s)
  tauto

theorem HoldsLive.live (hx : x.HoldsLive held) (s : StateRef) : s ∈ x.states ↔
    s ∈ held x.mergingSearcher.baseSearcher ∨ s ∈ x.mergingSearcher.pausedStates := by
  rw [hx.1, Finset.mem_sdiff, List.mem_toFinset]
  have hpaused := hx.2.1 s
  tauto

theorem act_runs {f : StateRef → MergeM σ Unit} {Q : Unit → Merging σ → Prop}
    (hs : x.current = some s) (hf : Runs (f s) x Q) : Runs (act f) x Q := by
  refine .get_bind ?_
  rw [hs]
  exact hf

theorem Sound.run (hbase : Correct base Inv held) (hx : Sound Inv held [] x)
    (hvalid : op.Valid x) (hreport : op.Reportable x) :
    Runs (op.run base useIncompleteMerge) x fun _ x' => Sound Inv held [] x' := by
  cases op with
  | select now =>
    obtain ⟨hne, hadded, -, hdeleted⟩ := hvalid
    refine .bind (hx.selectState hbase hadded hdeleted hne) ?_
    intro s x1 ⟨hx1, _, hs⟩
    have hlists := hx1.lists
    refine ⟨⟨⟩, _, rfl, hx1.exact, ⟨hlists.added_nodup, hlists.added, hlists.removed_nodup,
      hlists.removed, hlists.deleted_nodup, hlists.deleted, fun hcurrent => ?_⟩,
      hx1.handlers.of_eq rfl rfl rfl rfl fun _ => Iff.rfl, hx1.waits.of_eq rfl rfl rfl rfl⟩
    cases hcurrent
    exact hs
  | step =>
    obtain ⟨s, hs, -⟩ := hvalid
    exact act_runs hs ⟨⟨⟩, _, rfl, hx.exact, hx.lists.keep,
      hx.handlers.of_eq rfl rfl rfl rfl fun _ => Iff.rfl, hx.waits.of_eq rfl rfl rfl rfl⟩
  | openMerge =>
    obtain ⟨s, hs, -, hpaused⟩ := hvalid
    exact act_runs hs (hx.handleOpenMerge (hx.lists.current hs) hpaused)
  | closeMerge now merges mp =>
    obtain ⟨s, hs, hremoved, hpaused⟩ := hvalid
    exact act_runs hs (hx.handleCloseMerge hbase (hx.lists.current hs) hpaused hremoved)
  | branch t =>
    obtain ⟨⟨s, hs, -⟩, hfresh⟩ := hvalid
    exact act_runs hs (hx.branch (hx.lists.current hs) hfresh)
  | terminate now s => exact hx.terminateState hbase hvalid.1 hvalid.2
  | updateStates now => exact hx.updateStates hbase hvalid hreport
  | deleteStates now => exact .get_bind (hx.deleteStates hbase rfl)

theorem updateStates_yields (now : Now) (x : Merging σ) :
    Yields (updateStates base now) x fun _ x' =>
      MergingSearcher.update base now ⟨x.current, x.addedStates, x.removedStates⟩
        x.mergingSearcher = .ok x'.mergingSearcher ∧ x'.states = x.reported := by
  have hsearcher : Yields (onSearcher (MergingSearcher.update base now
      ⟨x.current, x.addedStates, x.removedStates⟩)) x fun _ x1 => ∃ y,
      MergingSearcher.update base now ⟨x.current, x.addedStates, x.removedStates⟩
        x.mergingSearcher = .ok y ∧ x1 = { x with mergingSearcher := y } := by
    refine .get_bind (.except_bind fun y hy => ?_)
    intro _ x1 hx1
    cases hx1
    exact ⟨y, hy, rfl⟩
  refine .get_bind (hsearcher.bind ?_)
  intro _ x1 ⟨y, hy, hx1⟩ _ x' hx'
  cases hx'
  rw [hx1]
  exact ⟨hy, rfl⟩

/-- A step after which the searcher holds what it should was one that could be passed on. -/
theorem Sound.reportable {x' : Merging σ} (hx : Sound Inv held [] x)
    (hrun : op.run base useIncompleteMerge x = .ok (⟨⟩, x')) (hx' : x'.HoldsLive held) :
    op.Reportable x := by
  cases op with
  | updateStates now =>
    obtain ⟨hy, hstates⟩ := updateStates_yields now x ⟨⟩ x' hrun
    by_contra hnot
    exact hx.not_exact hnot hy fun t => hstates ▸ hx'.live t
  | _ => exact trivial

/-- The searcher under the merging searcher holds the states that are not paused all the
time, and no other state is selected, exactly if no update has to be dropped and no state
is removed while it is paused. -/
theorem alwaysHoldsLive_iff_reportable (base : Searcher σ) (Inv : σ → Prop)
    (held : σ → Finset StateRef) (hbase : Correct base Inv held) (useIncompleteMerge : Bool)
    (baseSearcher : σ) (hinv : Inv baseSearcher) (hnone : held baseSearcher = ∅)
    (newStates : List StateRef) (hnew : newStates.Nodup) (ops : List Op)
    (hvalid : Along base useIncompleteMerge (fun x op => op.Valid x)
      (create baseSearcher newStates) ops) :
    AlwaysHoldsLive base useIncompleteMerge held (create baseSearcher newStates) ops ↔
      Along base useIncompleteMerge (fun x op => op.Reportable x)
        (create baseSearcher newStates) ops := by
  have hcreate : Sound Inv held [] (create baseSearcher newStates) := by
    refine ⟨⟨hinv, List.nodup_nil, nofun, fun {s} => ?_⟩,
      ⟨hnew, fun _ => ⟨Finset.notMem_empty _, List.not_mem_nil⟩, List.nodup_nil, nofun,
        List.nodup_nil, nofun, nofun⟩,
      ⟨nofun, nofun, nofun, nofun, fun _ => .nil, nofun, nofun, nofun, List.nodup_nil, ?_⟩,
      ⟨?_, ?_, nofun, nofun, nofun, nofun⟩⟩
    · show s ∈ (∅ : Finset StateRef) ↔ s ∈ held baseSearcher ∨ s ∈ []
      rw [hnone]
      simp
    · simp [create]
    · simp [create]
    · simp [create]
  generalize create baseSearcher newStates = x at hvalid hcreate
  induction ops generalizing x with
  | nil => exact ⟨fun _ => trivial, fun _ => hcreate.holdsLive⟩
  | cons op ops ih =>
    refine ⟨?_, ?_⟩
    · intro ⟨hholds, x1, hrun, hrest⟩
      have hx1 : x1.HoldsLive held := by
        cases ops with
        | nil => exact hrest
        | cons => exact hrest.1
      have hreport := hcreate.reportable hrun hx1
      refine ⟨hreport, fun x2 hrun2 => ?_⟩
      rw [hrun] at hrun2
      cases hrun2
      obtain ⟨⟨⟩, x3, hrun3, hsound⟩ := hcreate.run hbase hvalid.1 hreport
      rw [hrun] at hrun3
      cases hrun3
      exact (ih x1 (hvalid.2 x1 hrun) hsound).mp hrest
    · intro ⟨hreport, hrest⟩
      obtain ⟨⟨⟩, x1, hrun, hsound⟩ := hcreate.run hbase hvalid.1 hreport
      exact ⟨hcreate.holdsLive, x1, hrun,
        (ih x1 (hvalid.2 x1 hrun) hsound).mpr (hrest x1 hrun)⟩

/-- The state 1 is forked from the state 0 and waits for it. -/
def waitingRun : List Op :=
  [.updateStates ⟨0, 0⟩, .select ⟨0, 0⟩, .openMerge, .branch 1, .updateStates ⟨0, 0⟩,
    .deleteStates ⟨0, 0⟩, .select ⟨0, 0⟩, .closeMerge ⟨0, 0⟩ (fun _ => false) 7,
    .updateStates ⟨0, 0⟩, .deleteStates ⟨0, 0⟩]

theorem alwaysHoldsLive_waitingRun :
    AlwaysHoldsLive DFSSearcher.searcher false List.toFinset (create [] [0]) waitingRun :=
  (alwaysHoldsLive_iff_reportable DFSSearcher.searcher List.Nodup List.toFinset
    DFSSearcher.correct false [] List.nodup_nil rfl [0] (List.nodup_singleton 0) waitingRun
    (by decide +kernel)).mpr (by decide +kernel)

theorem AlwaysHoldsLive.returns {ops : List Op}
    (h : AlwaysHoldsLive base useIncompleteMerge held x ops) : Along base useIncompleteMerge
      (fun x op => (op.run base useIncompleteMerge x).toOption.isSome) x ops := by
  induction ops generalizing x with
  | nil => exact trivial
  | cons op ops ih =>
    obtain ⟨-, x1, hrun, hrest⟩ := h
    refine ⟨congrArg (fun r => r.toOption.isSome) hrun, fun x2 hrun2 => ?_⟩
    rw [hrun] at hrun2
    cases hrun2
    exact ih hrest

/-- The state that waits is terminated early; the searcher is told to remove a state that
it does not hold. -/
theorem not_alwaysHoldsLive_of_removed_while_paused :
    Along DFSSearcher.searcher false (fun x op => op.Valid x) (create [] [0])
      (waitingRun ++ [.terminate ⟨0, 0⟩ 1, .updateStates ⟨0, 0⟩]) ∧
    ¬ AlwaysHoldsLive DFSSearcher.searcher false List.toFinset (create [] [0])
      (waitingRun ++ [.terminate ⟨0, 0⟩ 1, .updateStates ⟨0, 0⟩]) := by
  refine ⟨by decide +kernel, fun h => ?_⟩
  have hreturns := h.returns
  revert hreturns
  decide +kernel

end

end Merging

end VitalSE.Searchers
