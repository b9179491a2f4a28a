import VitalSE.Proofs.MergeHandlersSound

/-!
# Merge points

What a state does at a merge point, and what it does when it forks, keeps the
invariant of the handlers. A state that waits at a handler has left it, and all
handlers that were opened after it.
-/

namespace VitalSE.Searchers

open Function (update update_self update_of_ne)

variable {σ : Type}

namespace Merging

section

variable {base : Searcher σ} {Inv : σ → Prop} {held : σ → Finset StateRef}
  {x : Merging σ} {now : Now} {h : HandlerRef} {m : MergeHandler} {s : StateRef}
  {x' : Merging σ} {merges : StateRef → Bool}

/-- The handler with one more open state and one more reference. -/
def addOpen (t : StateRef) (m : MergeHandler) : MergeHandler :=
  { m with refCount := m.refCount + 1, openStates := m.openStates ++ [t] }

theorem Altered.comp {g g' : MergeHandler → MergeHandler} {hs : List HandlerRef}
    {f f' f'' : HandlerRef → Option MergeHandler} (hf : Altered g hs f f')
    (hf' : Altered g' hs f' f'') : Altered (g' ∘ g) hs f f'' := by
  intro h
  rw [hf', hf, Option.map_map]
  by_cases hmem : h ∈ hs
  · simp [hmem, Function.comp_def]
  · simp [hmem, Function.comp_def]

theorem Handlers.join {ex ex' : StateRef → Prop} {t : StateRef} (hx : Handlers ex [] x)
    (hs : ex s) (ht : ¬ ex t)
    (hf : Altered (addOpen t) (x.openMergeStack s) x.mergeHandlers x'.mergeHandlers)
    (hgroups : x'.mergingSearcher.mergeGroups = x.mergingSearcher.mergeGroups)
    (hnext : x'.nextHandler = x.nextHandler)
    (hstack : x'.openMergeStack = update x.openMergeStack t (x.openMergeStack s))
    (hex : ∀ u, ex' u ↔ ex u ∨ u = t) : Handlers ex' [] x' := by
  have hmem : ∀ {u h}, ex' u ∧ h ∈ x'.openMergeStack u ↔
      ex u ∧ h ∈ x.openMergeStack u ∨ u = t ∧ h ∈ x.openMergeStack s := by
    intro u h
    rw [hstack, hex]
    by_cases heq : u = t
    · rw [heq, update_self]
      simp [ht]
    · rw [update_of_ne heq]
      simp [heq]
  refine hx.alter hf hgroups ?_ ?_ ?_ ?_ nofun
  · intro h m hh hm
    have hold := hx.handled hm
    have hnot : t ∉ m.openStates := fun hopen => ht (hold.open_iff.mp hopen).1
    refine ⟨fun {u} => ?_, nodup_snoc hnot hold.open_nodup, ?_, Nat.succ_pos _, hnext ▸ hold.bound⟩
    · rw [hmem, ← hold.open_iff]
      simp [addOpen, hh]
    · have hcount := hold.count
      show m.refCount + 1 = (m.openStates ++ [t]).length + _
      rw [List.length_append, List.length_singleton]
      omega
  · intro h m hh hm
    refine (hx.handled hm).congr rfl rfl (fun {u} => ?_) hnext.ge
    rw [hmem]
    simp [hh]
  · intro u hu
    rw [hstack]
    exact (Function.forall_update_iff _ (p := fun u (stack : List HandlerRef) =>
      ex u ∨ u = t → stack.Pairwise (· < ·))).mpr ⟨fun _ => hx.sorted hs, fun u hne hu =>
        hx.sorted (hu.resolve_right hne)⟩ u ((hex u).mp hu)
  · intro u h hu hh
    obtain ⟨hu, hh⟩ | ⟨-, hh⟩ := hmem.mp ⟨hu, hh⟩
    · exact hx.alive hu hh
    · exact hx.alive hs hh

/-- The handler with one more reference. -/
def oneRef (m : MergeHandler) : MergeHandler := { m with refCount := m.refCount + 1 }

/-- The handler with one more open state. -/
def oneOpen (s : StateRef) (m : MergeHandler) : MergeHandler :=
  { m with openStates := m.openStates ++ [s] }

theorem Sound.branch {t : StateRef} (hx : Sound Inv held [] x) (hs : s ∈ x.states)
    (ht : ¬ x.Present t) : Runs (Searchers.branch s t) x fun _ x' => Sound Inv held [] x' := by
  have hnodup : (x.openMergeStack s).Nodup :=
    (hx.handlers.sorted (.inl hs)).imp fun hlt => ne_of_lt hlt
  have halive : ∀ h ∈ x.openMergeStack s, ∃ m, x.mergeHandlers h = some m ∧ True := by
    intro h hmem
    obtain ⟨m, hm⟩ := hx.handlers.alive (.inl hs) hmem
    exact ⟨m, hm, trivial⟩
  refine .get_bind (.modify_bind (.modify_bind (.bind (forM_alters (g := oneRef)
    (fun hm _ => mergeHandler_bind hm ⟨⟨⟩, _, rfl, rfl⟩) hnodup halive) ?_)))
  intro _ x1 ⟨f, hx1, hf⟩
  subst hx1
  refine .bind (forM_alters (g := oneOpen t) (Q := fun _ => True)
    (fun hm _ => mergeHandler_bind hm ⟨⟨⟩, _, rfl, rfl⟩) hnodup fun h hmem => ?_) ?_
  · obtain ⟨m, hm, -⟩ := halive h hmem
    refine ⟨oneRef m, (hf h).trans ?_, trivial⟩
    show (x.mergeHandlers h).map _ = _
    rw [hm, Option.map_some, if_pos hmem]
  intro _ x2 ⟨f', hx2, hf'⟩
  subst hx2
  have hboth : Altered (addOpen t) (x.openMergeStack s) x.mergeHandlers f' := hf.comp hf'
  have hlists := hx.lists
  refine ⟨⟨⟩, _, rfl, hx.exact, ⟨nodup_snoc (fun hadded => ht (.inr (.inl hadded)))
    hlists.added_nodup, fun {u} hu => ?_,
    hlists.removed_nodup, hlists.removed, hlists.deleted_nodup, hlists.deleted,
    hlists.current⟩, hx.handlers.join (.inl hs) ht hboth rfl rfl rfl fun u => ?_,
    hx.waits.congr (fun {u h} hu hmem => ?_) hboth (fun _ _ => rfl) rfl rfl⟩
  · obtain hu | hu := List.mem_append.mp hu
    · exact hlists.added hu
    · rw [List.mem_singleton.mp hu]
      exact ⟨fun hstates => ht (.inl hstates), fun hdeleted => ht (.inr (.inr hdeleted))⟩
  · unfold Present
    rw [List.mem_append, List.mem_singleton]
    tauto
  · have hne : u ≠ t := fun heq => ht (.inl (hx.exact.live.mpr (.inr (heq ▸ hu))))
    replace hmem : h ∈ update x.openMergeStack t (x.openMergeStack s) u := hmem
    rw [update_of_ne hne] at hmem
    exact hmem

theorem Sound.handleOpenMerge (hx : Sound Inv held [] x) (hs : s ∈ x.states)
    (hnot : s ∉ x.mergingSearcher.pausedStates) :
    Runs (handleOpenMerge s) x fun _ x' => Sound Inv held [] x' := by
  have hhandlers := hx.handlers
  have hfresh : ¬ ∃ m, x.mergeHandlers x.nextHandler = some m :=
    fun ⟨_, hm⟩ => absurd (hhandlers.bound hm) (lt_irrefl _)
  let f (m : MergeHandler) := update x.mergeHandlers x.nextHandler (some m)
  have hself : ∀ m, f m x.nextHandler = some m := fun m => update_self ..
  have hother : ∀ m {h}, h ≠ x.nextHandler → f m h = x.mergeHandlers h :=
    fun m h hne => update_of_ne hne ..
  have hsome : ∀ m {h}, (∃ m', f m h = some m') ↔
      (∃ m', x.mergeHandlers h = some m') ∨ h = x.nextHandler := by
    intro m h
    by_cases heq : h = x.nextHandler
    · rw [heq, hself]
      simp
    · rw [hother m heq]
      simp [heq]
  -- The handler is new, so no other state has it.
  have hstack : ∀ {t h}, h ∈ update x.openMergeStack s
      (x.openMergeStack s ++ [x.nextHandler]) t ↔
        h ∈ x.openMergeStack t ∨ t = s ∧ h = x.nextHandler := by
    intro t h
    by_cases heq : t = s
    · rw [heq, update_self, List.mem_append, List.mem_singleton]
      simp
    · rw [update_of_ne heq]
      simp [heq]
  refine ⟨⟨⟩, _, rfl, ⟨hx.exact.base, hx.exact.nodup, hx.exact.disjoint, hx.exact.live⟩,
    hx.lists.keep, .of_handled (fun {h m} hm => ?_) (fun {t} ht => ?_) ?_ nofun
      (nodup_snoc (fun hmem => hfresh (hhandlers.groups.mp hmem)) hhandlers.groups_nodup)
      (fun {h} => ?_),
    hx.waits.clear (h := x.nextHandler) (fun {t h} ht hmem => ?_) (fun {t} => ?_)
      (fun {t} => ?_) (hother _) (hself _) (fun m hm => ?_)⟩
  · by_cases heq : h = x.nextHandler
    · replace hm : f _ h = some m := hm
      rw [heq, hself] at hm
      cases hm
      refine ⟨fun {t} => ?_, List.nodup_singleton s, rfl, Nat.one_pos, heq ▸ Nat.lt_succ_self _⟩
      show t ∈ [s] ↔ x.Present t ∧ h ∈ update x.openMergeStack s _ t
      rw [List.mem_singleton, hstack]
      refine ⟨fun ht => ⟨ht ▸ .inl hs, .inr ⟨ht, heq⟩⟩, fun ⟨ht, hmem⟩ => ?_⟩
      exact (hmem.resolve_left fun hmem => hfresh (heq ▸ hhandlers.alive ht hmem)).1
    · refine (hhandlers.handled ((hother _ heq).symm.trans hm)).congr rfl rfl (fun {t} => ?_)
        (Nat.le_succ _)
      show x.Present t ∧ h ∈ update x.openMergeStack s _ t ↔ _
      rw [hstack]
      simp [heq]
  · refine (Function.forall_update_iff _ (p := fun t (stack : List HandlerRef) =>
      x.Present t → stack.Pairwise (· < ·))).mpr ⟨fun ht => ?_, fun t _ ht =>
        hhandlers.sorted ht⟩ t ht
    refine List.pairwise_append.mpr ⟨hhandlers.sorted ht, List.pairwise_singleton .., ?_⟩
    intro h hmem h' hmem'
    obtain ⟨m', hm'⟩ := hhandlers.alive ht hmem
    rw [List.mem_singleton.mp hmem']
    exact hhandlers.bound hm'
  · intro t h ht hmem
    exact (hsome _).mpr ((hstack.mp hmem).imp (hhandlers.alive ht) And.right)
  · show h ∈ x.mergingSearcher.mergeGroups ++ [x.nextHandler] ↔ ∃ m', f _ h = some m'
    rw [List.mem_append, List.mem_singleton, hsome, hhandlers.groups]
  · exact (hstack.mp hmem).resolve_right fun heq => hnot (heq.1 ▸ ht)
  · exact (and_iff_left fun ⟨m, hm, _⟩ => hfresh ⟨m, hm⟩).symm
  · exact (and_iff_left fun ⟨m, hm, _⟩ => hfresh ⟨m, hm⟩).symm
  · cases hm
    rfl

/-- A state begins to wait at the handler, which it has left. -/
theorem Waits.pause {m' : MergeHandler} (hx : Waits x) (hm : x.mergeHandlers h = some m)
    (hnot : s ∉ x.mergingSearcher.pausedStates)
    (hhandlers : x'.mergeHandlers = update x.mergeHandlers h (some m'))
    (hwaiting : m'.waiting.Perm (s :: m.waiting)) (hkeys : m'.keys.Nodup)
    (hpaused : ∀ {t}, t ∈ x'.mergingSearcher.pausedStates ↔
      t ∈ x.mergingSearcher.pausedStates ∨ t = s)
    (hinClose : ∀ {t}, t ∈ x'.mergingSearcher.inCloseMerge ↔
      t ∈ x.mergingSearcher.inCloseMerge ∨ t = s)
    (hstack : ∀ {t h'}, h' ∈ x'.openMergeStack t → h' ∈ x.openMergeStack t)
    (hinner : ∀ {h'}, h' ∈ x'.openMergeStack s → h' < h) : Waits x' := by
  have hfree : ∀ {h'}, ¬ x.WaitsAt h' s := fun hs => hnot (hx.paused.mpr ⟨_, hs⟩)
  have hat : ∀ {h' t}, x'.WaitsAt h' t ↔ x.WaitsAt h' t ∨ t = s ∧ h' = h := by
    intro h' t
    unfold WaitsAt
    rw [hhandlers]
    by_cases heq : h' = h
    · rw [heq, update_self, hm]
      simp [hwaiting.mem_iff, or_comm]
    · rw [update_of_ne heq]
      simp [heq]
  have hnodup : ∀ {h1 m1}, x'.mergeHandlers h1 = some m1 → m1.waiting.Nodup ∧ m1.keys.Nodup := by
    intro h1 m1 hm1
    rw [hhandlers] at hm1
    by_cases heq : h1 = h
    · rw [heq, update_self] at hm1
      cases hm1
      exact ⟨hwaiting.nodup_iff.mpr (List.nodup_cons.mpr
        ⟨fun hs => hfree ⟨m, hm, hs⟩, hx.nodup hm⟩), hkeys⟩
    · rw [update_of_ne heq] at hm1
      exact ⟨hx.nodup hm1, hx.keys hm1⟩
  refine ⟨fun {t} => ?_, fun {t} => ?_, fun hm1 => (hnodup hm1).1, fun hm1 => (hnodup hm1).2,
    ?_, ?_⟩
  · rw [hpaused, hx.paused]
    show (∃ h', x.WaitsAt h' t) ∨ t = s ↔ ∃ h', x'.WaitsAt h' t
    simp [hat, exists_or]
  · rw [hinClose, hpaused, hx.inClose]
  · intro h1 m1 h2 m2 t hm1 ht1 hm2 ht2
    obtain h1at | ⟨rfl, rfl⟩ := hat.mp ⟨m1, hm1, ht1⟩
    · obtain h2at | ⟨rfl, -⟩ := hat.mp ⟨m2, hm2, ht2⟩
      · exact hx.waitsAt_unique h1at h2at
      · exact absurd h1at hfree
    · exact ((hat.mp ⟨m2, hm2, ht2⟩).resolve_left hfree).2.symm
  · intro h1 m1 t h' hm1 ht hmem
    obtain ⟨m0, hm0, ht⟩ | ⟨rfl, rfl⟩ := hat.mp ⟨m1, hm1, ht⟩
    · exact hx.inner hm0 ht (hstack hmem)
    · exact hinner hmem

/-- The handler with the statistics of one more closed state. -/
def counted (m : MergeHandler) (distance : Nat) : MergeHandler :=
  { m with
    closedStateCount := m.closedStateCount + 1
    closedMean := m.closedMean + ((distance : ℚ) - m.closedMean) / (m.closedStateCount + 1) }

/-- The last handler of its stack is left by a state. -/
theorem Handlers.pop {front : List HandlerRef} {m' : MergeHandler}
    (hx : Handlers x.Present [] x) (hs : x.Present s)
    (hstack : x.openMergeStack s = front ++ [h]) (hm : x.mergeHandlers h = some m)
    (hcore : core m' = core (dropOpen s m))
    (hhandlers : x'.mergeHandlers = update x.mergeHandlers h (some m'))
    (hgroups : x'.mergingSearcher.mergeGroups = x.mergingSearcher.mergeGroups)
    (hnext : x'.nextHandler = x.nextHandler)
    (hstack' : x'.openMergeStack = update x.openMergeStack s front)
    (hex : ∀ t, x'.Present t ↔ x.Present t) : Handlers x'.Present [h] x' := by
  have hsorted := hx.sorted hs
  rw [hstack, List.pairwise_append] at hsorted
  refine hx.leave (s := s) (List.nodup_singleton h) (hhandlers ▸ altered_update (fun _ => m') hm) ?_
    hgroups hnext ?_ (hex _).mp (fun {t h'} => ?_) fun {t} ht => ?_
  · intro h' m0 hh' hm0
    rw [List.mem_singleton.mp hh', hm] at hm0
    cases hm0
    exact hcore
  · intro h' hh'
    rw [List.mem_singleton.mp hh', hstack]
    exact ⟨hs, List.mem_append_right _ List.mem_cons_self⟩
  · rw [hstack', hex]
    by_cases heq : t = s
    · rw [heq, update_self, hstack, List.mem_append, List.mem_singleton]
      have hne : h' ∈ front → h' ≠ h := fun hfront =>
        ne_of_lt (hsorted.2.2 h' hfront h List.mem_cons_self)
      tauto
    · rw [update_of_ne heq]
      simp [heq]
  · rw [hstack']
    exact (Function.forall_update_iff _ (p := fun t (stack : List HandlerRef) =>
      x.Present t → stack.Pairwise (· < ·))).mpr ⟨fun _ => hsorted.1, fun t _ ht =>
        hx.sorted ht⟩ t ((hex t).mp ht)

/-- The state is merged into another one and terminated, or it begins to wait. -/
theorem addClosedState_spec {mp : MergePoint} (states : Finset StateRef)
    (hbase : Correct base Inv held) (hexact : x.mergingSearcher.Exact Inv held states)
    (hs : s ∈ states) (hnot : s ∉ x.mergingSearcher.pausedStates)
    (hadded : s ∉ x.addedStates) (hm : x.mergeHandlers h = some m)
    (hopen : s ∈ m.openStates) (hkeys : m.keys.Nodup) :
    Runs (addClosedState base now merges h s mp) x fun _ x' => ∃ m',
      core m' = core (dropOpen s m) ∧
      ((m'.reachedCloseMerge = m.reachedCloseMerge ∧ x' = { x with
            mergingSearcher := { x.mergingSearcher with
              inCloseMerge := x.mergingSearcher.inCloseMerge.erase s }
            mergeHandlers := update x.mergeHandlers h (some m')
            removedStates := x.removedStates ++ [s] }) ∨
        (m'.waiting.Perm (s :: m.waiting) ∧ m'.keys.Nodup ∧ ∃ b,
          MergingSearcher.Exact Inv held states { x.mergingSearcher with
            pausedStates := x.mergingSearcher.pausedStates ++ [s], baseSearcher := b } ∧
          x' = { x with
            mergingSearcher := { x.mergingSearcher with
              pausedStates := x.mergingSearcher.pausedStates ++ [s], baseSearcher := b }
            mergeHandlers := update x.mergeHandlers h (some m') })) := by
  refine mergeHandler_bind hm (.get_bind (.modify_bind ?_))
  let distance := m.getInstructionDistance (x.steppedInstructions s)
  let f := update x.mergeHandlers h (some (counted m distance))
  have hf : f h = some (counted m distance) := update_self ..
  refine .bind (removeOpenState_spec (x := { x with mergeHandlers := f }) hf hopen) ?_
  intro _ x1 hx1
  have htwice : update f h (some (dropOpen s (counted m distance))) =
      update x.mergeHandlers h (some (dropOpen s (counted m distance))) :=
    Function.update_idem ..
  rw [htwice] at hx1
  subst hx1
  split
  case isTrue =>
    refine .bind (P := fun _ x' => x' = { x with
      mergeHandlers := update x.mergeHandlers h
        (some (dropOpen s (counted m distance)))
      removedStates := x.removedStates ++ [s] }) ?_ ?_
    · refine .get_bind ?_
      rw [if_neg hadded]
      exact ⟨⟨⟩, _, rfl, rfl⟩
    · intro _ x2 hx2
      subst hx2
      exact ⟨⟨⟩, _, rfl, dropOpen s (counted m distance), rfl, .inl ⟨rfl, rfl⟩⟩
  case isFalse =>
    have hdrop : update x.mergeHandlers h
        (some (dropOpen s (counted m distance))) h = some (dropOpen s (counted m distance)) :=
      update_self ..
    refine mergeHandler_bind hdrop (.modify_bind ?_)
    obtain ⟨b, hb, hexact'⟩ := MergingSearcher.pauseState_spec now hbase hexact hs hnot
    refine onSearcher_spec hb ⟨(dropOpen s (counted m distance)).reach mp s, ?_,
      .inr ⟨MergeHandler.reach_waiting hkeys, MergeHandler.reach_keys hkeys, b, hexact', ?_⟩⟩
    · unfold MergeHandler.reach
      split <;> rfl
    · rw [Function.update_idem]

theorem Sound.handleCloseMerge {mp : MergePoint} (hbase : Correct base Inv held)
    (hx : Sound Inv held [] x) (hs : s ∈ x.states)
    (hnot : s ∉ x.mergingSearcher.pausedStates) (hremoved : s ∉ x.removedStates) :
    Runs (handleCloseMerge base now merges s mp) x fun _ x' => Sound Inv held [] x' := by
  refine .get_bind ?_
  obtain hnil | ⟨front, h, hstack⟩ := List.eq_nil_or_concat (x.openMergeStack s)
  · rw [hnil]
    exact .pure hx
  rw [List.concat_eq_append] at hstack
  have hlast : (x.openMergeStack s).getLast? = some h := by
    rw [hstack]
    exact List.getLast?_concat
  have hfront : (x.openMergeStack s).dropLast = front := by
    rw [hstack, List.dropLast_concat]
  have hclose : s ∉ x.mergingSearcher.inCloseMerge := fun hmem => hnot (hx.waits.inClose.mp hmem)
  rw [hlast]
  dsimp only
  rw [if_neg hclose, hfront]
  have hmem : h ∈ x.openMergeStack s := by
    rw [hstack]
    exact List.mem_append_right _ List.mem_cons_self
  obtain ⟨m, hm⟩ := hx.handlers.alive (.inl hs) hmem
  have hopen : s ∈ m.openStates := (hx.handlers.open_iff hm).mpr ⟨.inl hs, hmem⟩
  have hbelow : ∀ {t h'}, h' ∈ update x.openMergeStack s front t →
      h' ∈ x.openMergeStack t := by
    intro t h' hh'
    by_cases heq : t = s
    · rw [heq, update_self] at hh'
      rw [heq, hstack]
      exact List.mem_append_left _ hh'
    · rwa [update_of_ne heq] at hh'
  have hinner : ∀ {h'}, h' ∈ update x.openMergeStack s front s → h' < h := by
    intro h' hh'
    rw [update_self] at hh'
    have hsorted := hx.handlers.sorted (.inl hs)
    rw [hstack, List.pairwise_append] at hsorted
    exact hsorted.2.2 h' hh' h List.mem_cons_self
  have hexact := hx.exact
  have hlists := hx.lists
  refine .modify_bind (.bind (addClosedState_spec x.states hbase
    ⟨hexact.base, hexact.nodup, hexact.disjoint, hexact.live⟩ hs hnot
    (fun hadded => (hlists.added hadded).1 hs) hm hopen (hx.waits.keys hm)) ?_)
  intro _ x1 ⟨m', hcore, hcase⟩
  refine .modify_bind ?_
  suffices hsound : Sound Inv held [h] { x1 with
      openMergeStack := update x1.openMergeStack s front } by
    exact (hsound.decRef hbase).imp fun _ _ hx' => hx'.1
  obtain ⟨hreached, rfl⟩ | ⟨hwaiting, hkeys, b, hexact', rfl⟩ := hcase
  · refine ⟨⟨hexact.base, hexact.nodup, hexact.disjoint, hexact.live⟩,
      (hlists.remove hs hremoved).keep,
      hx.handlers.pop (.inl hs) hstack hm hcore rfl rfl rfl rfl fun _ => Iff.rfl,
      hx.waits.congr (fun _ hh' => hbelow hh') (altered_update (fun _ => m') hm)
        (fun {h' m0} hh' hm0 => ?_) rfl (Finset.erase_insert hclose)⟩
    rw [List.mem_singleton.mp hh', hm] at hm0
    cases hm0
    exact hreached
  · refine ⟨hexact', hlists.keep,
      hx.handlers.pop (.inl hs) hstack hm hcore rfl rfl rfl rfl fun _ => Iff.rfl,
      hx.waits.pause hm hnot rfl hwaiting hkeys (fun {t} => ?_) (fun {t} => ?_) hbelow hinner⟩
    · show t ∈ x.mergingSearcher.pausedStates ++ [s] ↔ _
      rw [List.mem_append, List.mem_singleton]
    · show t ∈ insert s x.mergingSearcher.inCloseMerge ↔ _
      rw [Finset.mem_insert, or_comm]

end

end Merging

end VitalSE.Searchers
