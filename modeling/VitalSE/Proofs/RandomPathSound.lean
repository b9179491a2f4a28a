import VitalSE.Proofs.SimulationSound
import VitalSE.Proofs.TagsSound

/-!
# Random-path searchers over one process tree

Up to three random-path searchers share the process tree. The client registers
them, forks states, removes those that nobody owns, and tells each searcher which
states are added to it and removed from it. Which searchers own a state is kept
beside the executor as a bit mask; nothing of the code reads it.

The tags are right in every run (`Held`), so an update finds what it asserts, and
a walk down along the tags of a searcher ends at a state of the searcher.
-/

namespace VitalSE.Mcts.RandomPath

open Mcts.Executor PTree
open Function (update update_self update_of_ne)

variable {v : NodeRef} {rest : List StateRef} {ptr : PTreeNodePtr} {fuel : Nat}

/-! ## The client -/

/-- The executor with its random path searchers. -/
structure Client where
  executor : Executor
  registeredIds : Nat
  /-- The `idBitMask` of each searcher. -/
  searchers : List (BitVec 3)
  /-- The searchers that own a state. -/
  own : StateRef → BitVec 3

/-- No searcher is registered yet. -/
def Client.create (pc : Pc) : Client where
  executor := .create pc .none
  registeredIds := 0
  searchers := []
  own := fun _ => 0

/-- What can happen to the tree and the tags. -/
inductive Op
  | register
  | fork (s : StateRef)
  | remove (s : StateRef)
  | update (i : Nat) (addedStates removedStates : List StateRef)

/-- The owners after a searcher was told about states. -/
def give (mask : BitVec 3) (addedStates : List StateRef) (own : StateRef → BitVec 3)
    (s : StateRef) : BitVec 3 :=
  if s ∈ addedStates then own s ||| mask else own s

/-- A searcher loses the removed states. -/
def take (mask : BitVec 3) (removedStates : List StateRef) (own : StateRef → BitVec 3)
    (s : StateRef) : BitVec 3 :=
  if s ∈ removedStates then own s &&& ~~~mask else own s

/-- A fork makes a state and hangs the two states up below the node. -/
def forkState (s : StateRef) : ExecM Unit := do
  let falseState ← branchState s
  attachStates falseState s

/-- The node goes, and then the memory. -/
def removeState (env : Env) (s : StateRef) : ExecM Unit := do
  removeNode env (← state s).ptreeNode
  deleteState s

/-- An operation, with the states that the searchers own afterwards. -/
def Op.apply (env : Env) (x : Client) : Op → Except Abort Client
  | .register => do
    let (id, registeredIds) ← getNextId x.registeredIds
    return { x with registeredIds := registeredIds, searchers := x.searchers ++ [id] }
  | .fork s => do
    return { x with executor := (← forkState s x.executor).2 }
  | .remove s => do
    return { x with executor := (← removeState env s x.executor).2 }
  | .update i added removed => do
    match x.searchers[i]? with
    | none => throw (.undefined "no such searcher")
    | some mask =>
      return { x with
        executor := (← updateRandomPath mask added removed x.executor).2
        own := take mask removed (give mask added x.own) }

/-- What the executor sees to: there are not too many searchers, states are not used
after they are deleted, only states that no searcher has are removed, and a
searcher is told to remove states that it has. -/
def Op.Valid (x : Client) : Op → Prop
  | .register => x.registeredIds < 3
  | .fork s => (x.executor.heap s).isSome
  | .remove s => (x.executor.heap s).isSome ∧ x.own s = 0
  | .update i added removed => i < x.searchers.length ∧
      (∀ s ∈ added, (x.executor.heap s).isSome) ∧ removed.Nodup ∧
      ∀ s ∈ removed, (x.own s).getLsbD i = true ∨ s ∈ added

/-- A run of operations. -/
def run (env : Env) (x : Client) (ops : List Op) : Except Abort Client :=
  ops.foldlM (Op.apply env) x

/-- Every operation is possible when it is made. -/
def ValidRun (env : Env) : Client → List Op → Prop
  | _, [] => True
  | x, op :: ops => op.Valid x ∧ ∀ x', op.apply env x = .ok x' → ValidRun env x' ops

/-! ## What holds throughout -/

/-- The tags are right, and states and leaves know each other. -/
structure Held (x : Executor) (own : StateRef → BitVec 3) : Prop where
  linked : x.processTree.Linked
  hung : x.processTree.Hung
  tagged : x.processTree.Tagged own
  placed : ∀ {s st}, x.heap s = some st →
    ∃ a, x.processTree.nodes st.ptreeNode = some a ∧ a.state = some s
  stated : ∀ {v a s}, x.processTree.nodes v = some a → a.state = some s →
    ∃ st, x.heap s = some st ∧ st.ptreeNode = v
  live : ∀ {s}, own s ≠ 0 → ∃ st, x.heap s = some st
  fresh : ∀ {s st}, x.heap s = some st → s < x.nextState

variable {x : Executor} {own own' : StateRef → BitVec 3} {s : StateRef}
  {st : ExecutionState} {i : Fin 3} {a : PTreeNode} {mask tag : BitVec 3} {n : NodeRef}
  {α : Type} {Q : α → Executor → Prop} {added removed : List StateRef} {ops : List Op}

/-- A state that is there is read. -/
theorem state_bind {f : ExecutionState → ExecM α} (h : x.heap s = some st)
    (hf : Runs (f st) x Q) : Runs (state s >>= f) x Q :=
  Runs.bind_eq (state_runs h) hf

theorem ne_zero_of_bit {y : BitVec 3} (h : y.getLsbD i = true) : y ≠ 0 := by
  rintro rfl
  simp at h

theorem and_or_idMask : ∀ (i : Fin 3) (y : BitVec 3), y.getLsbD i = true →
    y = (y &&& ~~~idMask i) ||| idMask i := by decide

theorem getLsbD_and_idMask : ∀ (i : Fin 3) (y : BitVec 3),
    (y &&& ~~~idMask i).getLsbD i = false := by decide

theorem give_cons : give mask (s :: rest) own = give mask rest (update own s (own s ||| mask)) := by
  funext s'
  unfold give
  by_cases heq : s' = s
  · subst heq
    rw [if_pos List.mem_cons_self, update_self, BitVec.or_assoc, BitVec.or_self, ite_self]
  · rw [update_of_ne heq]
    simp only [List.mem_cons, heq, false_or]

theorem take_cons :
    take mask (s :: rest) own = take mask rest (update own s (own s &&& ~~~mask)) := by
  funext s'
  unfold take
  by_cases heq : s' = s
  · subst heq
    rw [if_pos List.mem_cons_self, update_self, BitVec.and_assoc, BitVec.and_self, ite_self]
  · rw [update_of_ne heq]
    simp only [List.mem_cons, heq, false_or]

theorem modifyState_bind {f : ExecutionState → ExecutionState} {g : Unit → ExecM α}
    (h : x.heap s = some st)
    (hg : Runs (g ⟨⟩) { x with heap := update x.heap s (some (f st)) } Q) :
    Runs (modifyState s f >>= g) x Q := by
  refine Runs.bind (P := fun _ x' =>
    { x with heap := update x.heap s (some (f st)) } = x') ?_ fun _ _ hx => ?_
  · exact state_bind h ⟨⟨⟩, _, rfl, rfl⟩
  · rw [← hx]
    exact hg

theorem branchState_runs (hs : x.heap s = some st) (hne : s ≠ x.nextState) :
    Runs (branchState s) x fun f x' => x.nextState = f ∧ x'.processTree = x.processTree ∧
      x'.nextState = x.nextState + 1 ∧
      (∃ st1, x'.heap s = some st1 ∧ st1.ptreeNode = st.ptreeNode) ∧
      (∃ st2, x'.heap f = some st2) ∧ ∀ s', s' ≠ s → s' ≠ f → x'.heap s' = x.heap s' := by
  refine modifyState_bind hs (Runs.get_bind (state_bind (update_self ..) ?_))
  refine ⟨x.nextState, _, rfl, rfl, rfl, rfl, ?_, ?_, ?_⟩
  · refine ⟨{ st with depth := st.depth + 1 }, ?_, rfl⟩
    show update (update _ _ _) _ _ s = _
    rw [update_of_ne hne, update_self]
  · exact ⟨_, update_self ..⟩
  · intro s' hs' hf
    show update (update _ _ _) _ _ s' = _
    rw [update_of_ne hf, update_of_ne hs']

theorem attachStates_runs {f : StateRef} {st2 : ExecutionState} {t : PTree}
    {left right : NodeRef} (hs : x.heap s = some st) (hf : x.heap f = some st2) (hne : s ≠ f)
    (hattach : x.processTree.attach st.ptreeNode f s = .ok (t, left, right)) :
    Runs (attachStates f s) x fun _ x' => x'.processTree = t ∧ x'.nextState = x.nextState ∧
      x'.heap s = some { st with ptreeNode := right } ∧
      x'.heap f = some { st2 with ptreeNode := left } ∧
      ∀ s', s' ≠ s → s' ≠ f → x'.heap s' = x.heap s' := by
  refine state_bind hs (Runs.get_bind (Runs.except_bind hattach (Runs.modify_bind
    (modifyState_bind hf ?_))))
  have hs1 : update x.heap f (some { st2 with ptreeNode := left }) s = some st := by
    rw [update_of_ne hne, hs]
  refine state_bind hs1 ⟨⟨⟩, _, rfl, rfl, rfl, update_self .., ?_, ?_⟩
  · show update (update _ _ _) _ _ f = _
    rw [update_of_ne hne.symm, update_self]
  · intro s' hs' hf'
    show update (update _ _ _) _ _ s' = _
    rw [update_of_ne hs', update_of_ne hf']

theorem node_bind {f : PTreeNode → ExecM α} (h : x.processTree.nodes n = some a)
    (hf : Runs (f a) x Q) : Runs (node n >>= f) x Q :=
  Runs.bind_eq (Runs.get_bind (Runs.liftExcept (node_eq_ok.mpr h) ⟨rfl, rfl⟩)) hf

/-- What a pointer counts for in the walk. -/
def ours (i : Fin 3) (ptr : PTreeNodePtr) : Option NodeRef :=
  if isOurNodeValid (idMask i) ptr then ptr.pointer else none

theorem ours_eq_none (h : ours i ptr = none) : ptr.tag.getLsbD i = false := by
  unfold ours at h
  rw [isOurNodeValid_eq] at h
  by_contra hbit
  rw [Bool.not_eq_false] at hbit
  rw [if_pos hbit] at h
  exact absurd (PTreeNodePtr.tag_of_none h) (ne_zero_of_bit hbit)

theorem ours_eq_some {c : NodeRef} (h : ours i ptr = some c) :
    ptr.pointer = some c ∧ ptr.tag.getLsbD i = true := by
  unfold ours at h
  rw [isOurNodeValid_eq] at h
  split at h
  next hbit => exact ⟨h, hbit⟩
  next => cases h

section

variable (h : Held x own)

include h

/-- Only the tags of the tree have changed. -/
theorem Held.retagged {t : PTree} (hre : Retagged x.processTree t)
    (htagged : t.Tagged own') (hlive : ∀ {s}, own' s ≠ 0 → ∃ st, x.heap s = some st) :
    Held { x with processTree := t } own' where
  linked := hre.links.linked h.linked
  hung := hre.links.hung h.hung
  tagged := htagged
  placed := by
    intro s st hs
    obtain ⟨a, ha, hstate⟩ := h.placed hs
    obtain ⟨a', ha'⟩ := hre.links.present ha
    obtain ⟨a1, ha1, hstate'⟩ := hre.state ha'
    rw [ha] at ha1
    cases ha1
    exact ⟨a', ha', hstate'.trans hstate⟩
  stated := by
    intro v a' s ha' hstate
    obtain ⟨a, ha, hstate'⟩ := hre.state ha'
    exact h.stated ha (hstate'.symm.trans hstate)
  live := hlive
  fresh := h.fresh

section

variable (hs : x.heap s = some st)

include hs

/-- The owners of one state change, which shows at its leaf. -/
theorem Held.tagBelow_update (ha : x.processTree.nodes v = some a) :
    tagBelow (update own s tag) a =
      if v = st.ptreeNode then tag else tagBelow own a := by
  obtain ⟨b, hb, hstate⟩ := h.placed hs
  split
  next hv =>
    subst hv
    rw [ha] at hb
    cases hb
    rw [tagBelow_state hstate, update_self]
  next hv =>
    cases hst : a.state with
    | none => rw [tagBelow_inner hst, tagBelow_inner hst]
    | some s' =>
      have hne : s' ≠ s := by
        rintro rfl
        obtain ⟨st', hst', hplace⟩ := h.stated ha hst
        rw [hs] at hst'
        cases hst'
        exact hv hplace.symm
      rw [tagBelow_state hst, tagBelow_state hst, update_of_ne hne]

theorem Held.live_update : ∀ {s'}, update own s tag s' ≠ 0 → ∃ st, x.heap s' = some st := by
  intro s' hne
  by_cases heq : s' = s
  · subst heq
    exact ⟨st, hs⟩
  · rw [update_of_ne heq] at hne
    exact h.live hne

theorem Held.taggedBy_update {R : NodeRef → BitVec 3 → BitVec 3 → Prop}
    (hself : R st.ptreeNode (own s) tag) (hother : ∀ c y, c ≠ st.ptreeNode → R c y y) :
    x.processTree.TaggedBy (update own s tag) R := by
  have hcompare : ∀ {c a}, x.processTree.nodes c = some a →
      R c (tagBelow own a) (tagBelow (update own s tag) a) := by
    intro c a ha
    rw [h.tagBelow_update hs ha]
    split
    next hc =>
      obtain ⟨b, hb, hstate⟩ := h.placed hs
      subst hc
      rw [ha] at hb
      cases hb
      rw [tagBelow_state hstate]
      exact hself
    next hc => exact hother c _ hc
  refine ⟨?_, ?_, h.tagged.bare, h.tagged.inner⟩
  · intro p b s c a hp hpoint hc
    rw [h.tagged.child hp hpoint hc]
    exact hcompare hc
  · intro v a hv hnone
    rw [h.tagged.root hv hnone]
    exact hcompare hv

/-! ## Updates -/

/-- The walk of an update changes the tags only. -/
theorem updatePath_runs {walk : Nat → PTree → NodeRef → Except Abort PTree}
    (hlive : ∀ {s}, own' s ≠ 0 → ∃ st, x.heap s = some st)
    (hwalk : ∃ t, walk (x.processTree.nextNode + 1) x.processTree st.ptreeNode = .ok t ∧
      Retagged x.processTree t ∧ t.Tagged own') :
    Runs (updatePath walk s) x fun _ x' => x'.heap = x.heap ∧ Held x' own' := by
  obtain ⟨t, ht, hre, htagged⟩ := hwalk
  refine state_bind hs (Runs.get_bind (Runs.except_bind ht ?_))
  exact ⟨⟨⟩, { x with processTree := t }, rfl, rfl, h.retagged hre htagged hlive⟩

theorem mark_runs : Runs (updatePath (markPath (idMask i)) s) x fun _ x' => x'.heap = x.heap ∧
      Held x' (update own s (own s ||| idMask i)) := by
  obtain ⟨a, ha, -⟩ := h.placed hs
  refine updatePath_runs h hs (h.live_update hs) (markPath_spec h.linked h.hung ?_ ha
    ((h.linked.bound ha).trans (Nat.lt_succ_self _)))
  refine h.taggedBy_update hs ?_ fun c y hc => ?_
  · rw [Missing, if_pos rfl]
  · rw [Missing, if_neg fun heq => hc (Option.some.inj heq).symm]

end

theorem unmark_runs (hown : (own s).getLsbD i = true) :
    Runs (updatePath (unmarkPath (idMask i)) s) x fun _ x' => x'.heap = x.heap ∧
      Held x' (update own s (own s &&& ~~~idMask i)) := by
  obtain ⟨st, hs⟩ := h.live (ne_zero_of_bit hown)
  obtain ⟨a, ha, hstate⟩ := h.placed hs
  refine updatePath_runs h hs (h.live_update hs) (unmarkPath_spec h.linked h.hung ?_ ha ?_
    ((h.linked.bound ha).trans (Nat.lt_succ_self _)))
  · refine h.taggedBy_update hs ?_ fun c y hc => ?_
    · rw [Spare, if_pos rfl]
      exact and_or_idMask i _ hown
    · rw [Spare, if_neg fun heq => hc (Option.some.inj heq).symm]
  · intro s' hs'
    rw [hstate] at hs'
    cases hs'
    rw [update_self]
    exact getLsbD_and_idMask i _

theorem marks_run (hadded : ∀ s ∈ added, (x.heap s).isSome) :
    Runs (added.forM (updatePath (markPath (idMask i)))) x fun _ x' => x'.heap = x.heap ∧
      Held x' (give (idMask i) added own) := by
  induction added generalizing x own with
  | nil => exact Runs.pure ⟨rfl, h⟩
  | cons s rest ih =>
    obtain ⟨st, hs⟩ := Option.isSome_iff_exists.mp (hadded s List.mem_cons_self)
    refine Runs.bind (mark_runs h hs) fun _ x1 ⟨hheap, h1⟩ => ?_
    refine (ih h1 fun s' hs' => ?_).imp fun _ x' ⟨hheap', h'⟩ => ⟨hheap'.trans hheap, ?_⟩
    · rw [hheap]
      exact hadded s' (List.mem_cons_of_mem _ hs')
    · rw [give_cons]
      exact h'

theorem unmarks_run (hnodup : removed.Nodup) (hremoved : ∀ s ∈ removed, (own s).getLsbD i = true) :
    Runs (removed.forM (updatePath (unmarkPath (idMask i)))) x fun _ x' =>
      x'.heap = x.heap ∧ Held x' (take (idMask i) removed own) := by
  induction removed generalizing x own with
  | nil => exact Runs.pure ⟨rfl, h⟩
  | cons s rest ih =>
    obtain ⟨hs, hrest⟩ := List.nodup_cons.mp hnodup
    refine Runs.bind (unmark_runs h (hremoved s List.mem_cons_self))
      fun _ x1 ⟨hheap, h1⟩ => ?_
    refine (ih h1 hrest fun s' hs' => ?_).imp fun _ x' ⟨hheap', h'⟩ =>
      ⟨hheap'.trans hheap, ?_⟩
    · have hne : s' ≠ s := by
        rintro rfl
        exact hs hs'
      rw [update_of_ne hne]
      exact hremoved s' (List.mem_cons_of_mem _ hs')
    · rw [take_cons]
      exact h'

theorem update_runs (hadded : ∀ s ∈ added, (x.heap s).isSome) (hnodup : removed.Nodup)
    (hremoved : ∀ s ∈ removed, (own s).getLsbD i = true ∨ s ∈ added) :
    Runs (updateRandomPath (idMask i) added removed) x fun _ x' =>
      Held x' (take (idMask i) removed (give (idMask i) added own)) := by
  refine Runs.bind (marks_run h hadded) fun _ x1 ⟨_, h1⟩ => ?_
  refine (unmarks_run h1 hnodup fun s hs => ?_).imp fun _ _ ⟨_, h'⟩ => h'
  unfold give
  split
  · exact getLsbD_or_idMask i _
  · exact (hremoved s hs).resolve_right (by assumption)

/-! ## Forks -/

theorem forkState_runs (hs : x.heap s = some st) :
    Runs (forkState s) x fun _ x' => Held x' own := by
  have hlt : s < x.nextState := h.fresh hs
  refine (branchState_runs hs hlt.ne).bind fun f x1 ⟨hf, htree, hnext, ⟨st1, hs1, hplace⟩,
    ⟨st2, hf1⟩, hrest⟩ => ?_
  subst hf
  obtain ⟨a, ha, hstate⟩ := h.placed hs
  obtain ⟨⟨t, left, right⟩, hattach⟩ :=
    attach_returns (l := x.nextState) (r := s) h.linked h.hung ha
  obtain ⟨hleft, hright, b, ptr, hptr, hb⟩ := attach_attached h.linked hattach
  have hab := hb.present
  rw [ha] at hab
  cases hab
  have htag : ptr.int = own s := by
    obtain ⟨ptr', hptr', -, heq⟩ := h.tagged.childPtr h.linked h.hung ha
    rw [hptr] at hptr'
    cases hptr'
    exact heq.trans (tagBelow_state hstate)
  rw [htag] at hb
  have hnew : own x.nextState = 0 := by
    by_contra hne
    obtain ⟨st', hst'⟩ := h.live hne
    exact absurd (h.fresh hst') (lt_irrefl _)
  have hattach1 : x1.processTree.attach st1.ptreeNode x.nextState s =
      .ok (t, left, right) := by
    rw [htree, hplace]
    exact hattach
  refine (attachStates_runs hs1 hf1 hlt.ne hattach1).imp fun _ x' ⟨htree', hnext', hs', hf',
    hrest'⟩ => ?_
  subst htree'
  have hother : ∀ s', s' ≠ s → s' ≠ x.nextState → x'.heap s' = x.heap s' := by
    intro s' h1 h2
    rw [hrest' s' h1 h2, hrest s' h1 h2]
  refine ⟨h.linked.attached hb, h.hung.attached h.linked hb (h.tagged.leaf ha hstate),
    h.tagged.attached h.linked hb hstate hnew, ?_, ?_, ?_, ?_⟩
  · intro s' st' hst'
    by_cases h1 : s' = s
    · subst h1
      rw [hs'] at hst'
      cases hst'
      rw [hright]
      exact ⟨_, hb.right, rfl⟩
    by_cases h2 : s' = x.nextState
    · subst h2
      rw [hf'] at hst'
      cases hst'
      rw [hleft]
      exact ⟨_, hb.left, rfl⟩
    · rw [hother s' h1 h2] at hst'
      obtain ⟨e, he, hestate⟩ := h.placed hst'
      have hne : st'.ptreeNode ≠ st.ptreeNode := by
        intro heq
        rw [heq, ha] at he
        cases he
        rw [hstate] at hestate
        exact h1 (Option.some.inj hestate).symm
      exact ⟨e, hb.old h.linked hne he, hestate⟩
  · intro v e s' he hestate
    obtain ⟨rfl, rfl⟩ | ⟨_, rfl, -, -, ⟨rfl, rfl⟩ | ⟨rfl, rfl⟩⟩ | ⟨hvn, he⟩ := hb.cases he
    · cases hestate
    · cases hestate
      exact ⟨_, hf', hleft⟩
    · cases hestate
      exact ⟨_, hs', hright⟩
    · obtain ⟨st', hst', hplace'⟩ := h.stated he hestate
      refine ⟨st', ?_, hplace'⟩
      rw [hother s' ?_ (h.fresh hst').ne, hst']
      rintro rfl
      rw [hs] at hst'
      cases hst'
      exact hvn hplace'.symm
  · intro s' hne
    obtain ⟨st', hst'⟩ := h.live hne
    by_cases h1 : s' = s
    · subst h1
      exact ⟨_, hs'⟩
    · exact ⟨st', by rw [hother s' h1 (h.fresh hst').ne, hst']⟩
  · intro s' st' hst'
    rw [hnext', hnext]
    by_cases h2 : s' = x.nextState
    · rw [h2]
      exact Nat.lt_succ_self _
    by_cases h1 : s' = s
    · rw [h1]
      exact hlt.trans (Nat.lt_succ_self _)
    · rw [hother s' h1 h2] at hst'
      exact (h.fresh hst').trans (Nat.lt_succ_self _)

/-! ## Removals -/

theorem removeState_runs (env : Env) (hs : x.heap s = some st) (hown : own s = 0) :
    Runs (removeState env s) x fun _ x' => Held x' own := by
  obtain ⟨a, ha, hstate⟩ := h.placed hs
  have hzero : tagBelow own a = 0 := (tagBelow_state hstate).trans hown
  obtain ⟨t, ht⟩ :=
    remove_returns env.compressProcessTree h.linked h.hung ha (h.tagged.leaf ha hstate)
  have hsteps := remove_surgery h.linked ht
  refine state_bind hs (Runs.bind (P := fun _ x' => { x with processTree := t } = x')
    (Runs.get_bind (Runs.except_bind ht ⟨⟨⟩, _, rfl, rfl⟩)) fun _ x1 hx1 => ?_)
  subst hx1
  have hheap : ∀ {s' st'}, update x.heap s none s' = some st' →
      s' ≠ s ∧ x.heap s' = some st' := by
    intro s' st' hs'
    by_cases heq : s' = s
    · subst heq
      rw [update_self] at hs'
      cases hs'
    · rw [update_of_ne heq] at hs'
      exact ⟨heq, hs'⟩
  refine ⟨⟨⟩, _, rfl, h.linked.surgeries hsteps, h.hung.surgeries hsteps,
    h.tagged.remove h.linked ?_ ht, ?_, ?_, ?_, ?_⟩
  · intro b hb
    rw [ha] at hb
    cases hb
    exact hzero
  · intro s' st' hst'
    obtain ⟨hne, hst'⟩ := hheap hst'
    obtain ⟨e, he, hestate⟩ := h.placed hst'
    refine h.tagged.remove_keeps h.linked ha hzero ?_ he hestate ht
    rw [hstate]
    exact fun heq => hne (Option.some.inj heq).symm
  · intro v e s' he hestate
    obtain ⟨e0, _, _, _, he0, rfl⟩ := surgeries_was hsteps he
    obtain ⟨st', hst', hplace⟩ := h.stated he0 hestate
    refine ⟨st', ?_, hplace⟩
    show update x.heap s none s' = some st'
    rw [update_of_ne, hst']
    rintro rfl
    rw [hs] at hst'
    cases hst'
    rw [← hplace, remove_gone h.linked ht] at he
    cases he
  · intro s' hne
    obtain ⟨st', hst'⟩ := h.live hne
    refine ⟨st', ?_⟩
    show update x.heap s none s' = some st'
    rw [update_of_ne, hst']
    rintro rfl
    exact hne hown
  · intro s' st' hst'
    exact h.fresh (hheap hst').2

/-! ## Selection -/

variable {env : Env}

/-- A child with the bit is valid, and the walk can go on with it. -/
theorem Held.child_of_tag {side : LinkedTree.Side} (ha : x.processTree.nodes n = some a)
    (hbit : (a.child side).tag.getLsbD i = true) : ∃ c b, (a.child side).pointer = some c ∧
      x.processTree.nodes c = some b ∧ n < c ∧ (tagBelow own b).getLsbD i = true := by
  cases hptr : (a.child side).pointer with
  | none =>
    exact absurd (PTreeNodePtr.tag_of_none hptr) (ne_zero_of_bit hbit)
  | some c =>
    obtain ⟨b, hb, -⟩ := h.linked.child ha hptr
    rw [h.tagged.child_tag ha hptr hb] at hbit
    exact ⟨c, b, rfl, hb, h.linked.child_gt ha hptr, hbit⟩

/-- From a node with the bit the walk goes down to a state of the searcher. -/
theorem selectPath_runs {bits : List Bool} (ha : x.processTree.nodes n = some a)
    (hbit : (tagBelow own a).getLsbD i = true) (hfuel : x.processTree.nextNode - n < fuel) :
    Runs (selectPath env (idMask i) fuel bits n) x fun s x' => (own s).getLsbD i = true ∧
      x'.heap = x.heap ∧ x'.processTree = x.processTree := by
  induction fuel generalizing bits n a x with
  | zero => exact absurd hfuel (Nat.not_lt_zero _)
  | succ fuel ih =>
    -- going down, the distance to the next number shrinks
    have hdown : ∀ {x1 : Executor} {s c bits}, Held x1 own → x1.heap = x.heap →
        x1.processTree = x.processTree → ours i (a.child s) = some c →
        Runs (selectPath env (idMask i) fuel bits c) x1 fun s x' =>
          (own s).getLsbD i = true ∧ x'.heap = x.heap ∧ x'.processTree = x.processTree := by
      intro x1 s c bits h1 hheap htree hours
      obtain ⟨hptr, htag⟩ := ours_eq_some hours
      obtain ⟨c', b, hptr', hb, hlt, hbit'⟩ := h.child_of_tag ha htag
      rw [hptr] at hptr'
      cases hptr'
      rw [← hheap, ← htree]
      refine ih h1 (htree ▸ hb) hbit' ?_
      have hbound := h.linked.bound hb
      rw [htree]
      exact lt_of_lt_of_le (Nat.sub_lt_sub_left (hlt.trans hbound) hlt)
        (Nat.lt_succ_iff.mp hfuel)
    refine node_bind ha ?_
    cases hstate : a.state with
    | some s =>
      rw [tagBelow_state hstate] at hbit
      exact Runs.pure ⟨hbit, rfl, rfl⟩
    | none =>
      dsimp only
      split
      · next hleft hright =>
        have hl : (a.child .left).tag.getLsbD i = false := ours_eq_none hleft
        have hr : (a.child .right).tag.getLsbD i = false := ours_eq_none hright
        rw [tagBelow_inner hstate, BitVec.getLsbD_or, hl, hr] at hbit
        cases hbit
      · next r _ hright => exact hdown h rfl rfl (s := .right) hright
      · next l hleft _ => exact hdown h rfl rfl (s := .left) hleft
      · next l r hleft hright =>
        have hflip : ∀ {x1 : Executor} {bits} (flip : Bool), Held x1 own →
            x1.heap = x.heap → x1.processTree = x.processTree →
            Runs (selectPath env (idMask i) fuel bits (if flip then l else r)) x1
              fun s x' => (own s).getLsbD i = true ∧ x'.heap = x.heap ∧
                x'.processTree = x.processTree := by
          intro x1 bits flip h1 hheap htree
          cases flip with
          | false => exact hdown h1 hheap htree (s := .right) hright
          | true => exact hdown h1 hheap htree (s := .left) hleft
        cases bits with
        | cons flip bits => exact hflip flip h rfl rfl
        | nil =>
          -- a new random number is drawn
          have h1 : Held { x with rngPosition := x.rngPosition + 1 } own :=
            ⟨h.linked, h.hung, h.tagged, h.placed, h.stated, h.live, h.fresh⟩
          exact hflip _ h1 rfl rfl

theorem Held.root_pointer (hbit : x.processTree.root.int.getLsbD i = true) :
    ∃ v a, x.processTree.root.pointer = some v ∧ x.processTree.nodes v = some a ∧
      (tagBelow own a).getLsbD i = true := by
  obtain ⟨v, a, ha, hnone⟩ := h.tagged.bare (ne_zero_of_bit hbit)
  rw [h.tagged.root ha hnone] at hbit
  exact ⟨v, a, h.hung.root ha hnone, ha, hbit⟩

/-- The pointer to the root has the bit if the searcher has a state. -/
theorem Held.root_iff : x.processTree.root.int.getLsbD i = true ↔
    ∃ s, (own s).getLsbD i = true := by
  constructor
  · intro hbit
    obtain ⟨v, a, -, ha, hbelow⟩ := h.root_pointer hbit
    obtain ⟨n, e, s, -, -, hown, -⟩ := h.tagged.exists_below h.linked h.hung ha hbelow
    exact ⟨s, hown⟩
  · rintro ⟨s, hown⟩
    obtain ⟨st, hs⟩ := h.live (ne_zero_of_bit hown)
    obtain ⟨a, ha, hstate⟩ := h.placed hs
    obtain ⟨path, hpath⟩ := exists_climb h.linked h.hung ha
    obtain ⟨v, b, hv, hb, hnone⟩ := hpath.exists_root
    rw [h.tagged.root hb hnone]
    refine h.tagged.getLsbD_climb h.hung hpath ha ?_ hv hb
    rw [tagBelow_state hstate]
    exact hown

theorem Held.empty_iff : emptyRandomPath (idMask i) x = true ↔ ∀ s, (own s).getLsbD i = false := by
  have htag : x.processTree.root.tag.getLsbD i = true ↔ ∃ s, (own s).getLsbD i = true := by
    rw [← h.root_iff]
    constructor
    · intro hbit
      unfold PTreeNodePtr.tag at hbit
      split at hbit
      · exact hbit
      · simp at hbit
    · intro hbit
      obtain ⟨v, a, hptr, -⟩ := h.root_pointer hbit
      rw [PTreeNodePtr.tag_of_some hptr]
      exact hbit
  unfold emptyRandomPath
  rw [isOurNodeValid_eq, Bool.not_eq_true', ← Bool.not_eq_true, htag]
  simp only [not_exists, Bool.not_eq_true]

theorem selectRandomPath_runs (hown : (own s).getLsbD i = true)
    (hfuel : x.processTree.nextNode < fuel) :
    Runs (selectRandomPath env (idMask i) fuel) x fun s' _ => (own s').getLsbD i = true := by
  have hbit := h.root_iff.mpr ⟨s, hown⟩
  obtain ⟨v, a, hptr, ha, hbelow⟩ := h.root_pointer hbit
  refine Runs.get_bind ?_
  dsimp only
  rw [if_neg ((and_idMask i _).mpr hbit), hptr]
  have hfuel' : x.processTree.nextNode - v < fuel := (Nat.sub_le _ _).trans_lt hfuel
  exact (selectPath_runs h ha hbelow hfuel').imp fun _ _ hs => hs.1

end

/-! ## Runs -/

/-- The tags are those of the owners, and the masks are the first bits. -/
structure Sound (x : Client) : Prop where
  held : Held x.executor x.own
  ids : x.registeredIds ≤ 3
  searchers : x.searchers = (List.range x.registeredIds).map (1#3 <<< ·)

theorem Sound.create {pc : Pc} : Sound (.create pc) := by
  have hheap : ∀ {s st}, (Executor.create pc .none).heap s = some st →
      s = 0 ∧ st.ptreeNode = 0 := by
    intro s st hs
    replace hs : update (fun _ => none) 0 (some _) s = some st := hs
    by_cases heq : s = 0
    · subst heq
      rw [update_self] at hs
      cases hs
      exact ⟨rfl, rfl⟩
    · rw [update_of_ne heq] at hs
      cases hs
  refine ⟨⟨linked_create, hung_create, Tagged.create rfl, ?_, ?_, ?_, ?_⟩, Nat.zero_le _, rfl⟩
  · intro s st hs
    obtain ⟨rfl, hplace⟩ := hheap hs
    rw [hplace]
    exact ⟨_, rfl, rfl⟩
  · intro v a s ha hstate
    obtain ⟨rfl, rfl⟩ := create_nodes ha
    cases hstate
    exact ⟨_, rfl, rfl⟩
  · intro s hne
    exact absurd rfl hne
  · intro s st hs
    rw [(hheap hs).1]
    exact Nat.one_pos

theorem Sound.searcher {x : Client} {k : Nat} (h : Sound x) (hmask : x.searchers[k]? = some mask) :
    ∃ i : Fin 3, i.val = k ∧ mask = idMask i := by
  rw [h.searchers, List.getElem?_map] at hmask
  obtain ⟨j, hj, rfl⟩ := Option.map_eq_some_iff.mp hmask
  obtain ⟨hlt, heq⟩ := List.getElem?_eq_some_iff.mp hj
  rw [List.getElem_range] at heq
  subst heq
  rw [List.length_range] at hlt
  exact ⟨⟨k, hlt.trans_le h.ids⟩, rfl, rfl⟩

theorem Sound.apply (env : Env) {x : Client} {op : Op} (h : Sound x) (hvalid : op.Valid x) :
    ∃ x', op.apply env x = .ok x' ∧ Sound x' := by
  cases op with
  | register =>
    have hid : getNextId x.registeredIds = .ok (1#3 <<< x.registeredIds, x.registeredIds + 1) :=
      if_neg (Nat.not_lt.mpr hvalid)
    refine ⟨_, Except.bind_eq_ok.mpr ⟨_, hid, rfl⟩, h.held, hvalid, ?_⟩
    show x.searchers ++ _ = _
    rw [h.searchers, List.range_succ, List.map_append]
    rfl
  | fork s =>
    obtain ⟨st, hs⟩ := Option.isSome_iff_exists.mp hvalid
    obtain ⟨_, e, he, hheld⟩ := forkState_runs h.held hs
    exact ⟨_, Except.bind_eq_ok.mpr ⟨_, he, rfl⟩, hheld, h.ids, h.searchers⟩
  | remove s =>
    obtain ⟨st, hs⟩ := Option.isSome_iff_exists.mp hvalid.1
    obtain ⟨_, e, he, hheld⟩ := removeState_runs h.held env hs hvalid.2
    exact ⟨_, Except.bind_eq_ok.mpr ⟨_, he, rfl⟩, hheld, h.ids, h.searchers⟩
  | update k added removed =>
    obtain ⟨hk, hadded, hnodup, hremoved⟩ := hvalid
    have hmask : x.searchers[k]? = some x.searchers[k] := List.getElem?_eq_getElem hk
    obtain ⟨i, rfl, hid⟩ := h.searcher hmask
    rw [hid] at hmask
    obtain ⟨_, e, he, hheld⟩ := update_runs h.held hadded hnodup hremoved
    refine ⟨{ x with executor := e, own := take (idMask i) removed (give (idMask i) added x.own) },
      ?_, hheld, h.ids, h.searchers⟩
    show (match x.searchers[i.val]? with | none => _ | some mask => _) = _
    rw [hmask]
    exact Except.bind_eq_ok.mpr ⟨_, he, rfl⟩

theorem Sound.run {x : Client} (h : Sound x) (hvalid : ValidRun env x ops) :
    ∃ x', run env x ops = .ok x' ∧ Sound x' := by
  induction ops generalizing x with
  | nil => exact ⟨x, rfl, h⟩
  | cons op ops ih =>
    obtain ⟨x1, h1, hsound1⟩ := h.apply env hvalid.1
    obtain ⟨x', hx', hsound'⟩ := ih hsound1 (hvalid.2 x1 h1)
    refine ⟨x', ?_, hsound'⟩
    rw [RandomPath.run, List.foldlM_cons]
    exact Except.bind_eq_ok.mpr ⟨x1, h1, hx'⟩

/-- The tag of the pointer to a node. -/
theorem Sound.tag_iff {x : Client} (h : Sound x) (ha : x.executor.processTree.nodes v = some a) :
    (tagBelow x.own a).getLsbD i = true ↔ ∃ s st, x.executor.heap s = some st ∧
      (x.own s).getLsbD i = true ∧ x.executor.processTree.Below v st.ptreeNode := by
  rw [h.held.tagged.getLsbD_iff h.held.linked h.held.hung ha]
  constructor
  · rintro ⟨n, e, s, hn, hstate, hown, hbelow⟩
    obtain ⟨st, hs, rfl⟩ := h.held.stated hn hstate
    exact ⟨s, st, hs, hown, hbelow⟩
  · rintro ⟨s, st, hs, hown, hbelow⟩
    obtain ⟨e, he, hstate⟩ := h.held.placed hs
    exact ⟨_, e, s, he, hstate, hown, hbelow⟩

/-- The tag on an edge has the bit of a searcher just when a state of its own lies below,
and the searcher then selects one of them. -/
theorem tags_exact (env : Env) (pc : Pc) (ops : List Op)
    (hvalid : ValidRun env (.create pc) ops) :
    ∃ x, run env (.create pc) ops = .ok x ∧ ∀ k mask, x.searchers[k]? = some mask →
      (∀ p b side c, x.executor.processTree.nodes p = some b →
        (b.child side).pointer = some c →
        ((b.child side).int &&& mask ≠ 0 ↔ ∃ s st, x.executor.heap s = some st ∧
          (x.own s).getLsbD k = true ∧ x.executor.processTree.Below c st.ptreeNode)) ∧
      (x.executor.processTree.root.int &&& mask ≠ 0 ↔ ∃ s, (x.own s).getLsbD k = true) ∧
      (emptyRandomPath mask x.executor = true ↔ ∀ s, (x.own s).getLsbD k = false) ∧
      (emptyRandomPath mask x.executor = false → ∀ fuel,
        x.executor.processTree.nextNode < fuel →
        ∃ s y, selectRandomPath env mask fuel x.executor = .ok (s, y) ∧
          (x.own s).getLsbD k = true) := by
  obtain ⟨x, hrun, hsound⟩ := Sound.create.run hvalid
  refine ⟨x, hrun, fun k mask hmask => ?_⟩
  obtain ⟨i, rfl, rfl⟩ := hsound.searcher hmask
  have h := hsound.held
  refine ⟨?_, ?_, h.empty_iff, ?_⟩
  · intro p b side c hb hptr
    obtain ⟨a, ha, -⟩ := h.linked.child hb hptr
    rw [and_idMask, h.tagged.child hb hptr ha]
    exact hsound.tag_iff ha
  · rw [and_idMask]
    exact h.root_iff
  · intro hempty fuel hfuel
    have howned : ∃ s, (x.own s).getLsbD i = true := by
      by_contra hnone
      push Not at hnone
      rw [h.empty_iff.mpr fun s => Bool.eq_false_iff.mpr (hnone s)] at hempty
      cases hempty
    obtain ⟨s, hown⟩ := howned
    exact selectRandomPath_runs h hown hfuel

/-! ## A run of two searchers -/

instance (x : Client) : (op : Op) → Decidable (op.Valid x)
  | .register => inferInstanceAs (Decidable (x.registeredIds < 3))
  | .fork s => inferInstanceAs (Decidable ((x.executor.heap s).isSome = true))
  | .remove s => inferInstanceAs
      (Decidable ((x.executor.heap s).isSome = true ∧ x.own s = 0))
  | .update i added removed => inferInstanceAs
      (Decidable (i < x.searchers.length ∧
        (∀ s ∈ added, (x.executor.heap s).isSome = true) ∧ removed.Nodup ∧
        ∀ s ∈ removed, (x.own s).getLsbD i = true ∨ s ∈ added))

/-- The operations are valid one after the other. -/
def checkRun (env : Env) : Client → List Op → Bool
  | _, [] => true
  | x, op :: ops => decide (op.Valid x) &&
      match op.apply env x with
      | .ok x' => checkRun env x' ops
      | .error _ => true

theorem validRun_of_check {x : Client} (h : checkRun env x ops = true) : ValidRun env x ops := by
  induction ops generalizing x with
  | nil => trivial
  | cons op ops ih =>
    rw [checkRun, Bool.and_eq_true] at h
    refine ⟨of_decide_eq_true h.1, fun x' hx' => ih ?_⟩
    have hrest := h.2
    rw [hx'] at hrest
    exact hrest

/-- Two searchers share a fork; the first one gives its half up, and the tree is
compressed. -/
def twoSearchers : List Op :=
  [.register, .register, .update 0 [0] [], .fork 0, .update 1 [1] [], .fork 1,
    .update 0 [] [0], .remove 0]

theorem tags_exact_twoSearchers :
    ∃ x, run { Env.default with compressProcessTree := true } (.create 0) twoSearchers = .ok x ∧
      x.searchers[0]? = some 1 ∧ x.searchers[1]? = some 2 ∧
      emptyRandomPath 1 x.executor = true ∧
      ∃ s y, selectRandomPath { Env.default with compressProcessTree := true } 2
        (x.executor.processTree.nextNode + 1) x.executor = .ok (s, y) ∧
          (x.own s).getLsbD 1 = true := by
  have hvalid : ValidRun { Env.default with compressProcessTree := true } (.create 0)
      twoSearchers := validRun_of_check (by decide +kernel)
  obtain ⟨x, hx, h0, h1, hempty, hfull⟩ := Except.ok_of_any
    (r := run { Env.default with compressProcessTree := true } (.create 0) twoSearchers)
    (p := fun x => x.searchers[0]? = some 1 ∧ x.searchers[1]? = some 2 ∧
      emptyRandomPath 1 x.executor = true ∧ emptyRandomPath 2 x.executor = false)
    (by decide +kernel)
  obtain ⟨x', hx', hsearch⟩ := tags_exact _ _ _ hvalid
  rw [hx] at hx'
  cases hx'
  exact ⟨x, hx, h0, h1, hempty, (hsearch 1 2 h1).2.2.2 hfull _ (Nat.lt_succ_self _)⟩

end VitalSE.Mcts.RandomPath
