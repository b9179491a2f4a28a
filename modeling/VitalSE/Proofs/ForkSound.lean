import VitalSE.Core.Executor
import VitalSE.Proofs.SolverSound
import VitalSE.Solver.Ideal

/-!
# Forking splits the models of a state

When a state forks on a condition, the two states that come of it have between
them the models of its path condition: those under which the condition is true,
and those under which it is false. A side without models gets no state, and a
side with all of them is the state itself, with nothing added.

The condition is added through the constraint manager, which rewrites what is
already there; that it keeps the models is `Rewrites`. The rest of the state is
copied, and the object states are shared.
-/

namespace VitalSE

variable {A : Valuation → Prop} {s t : ExecutionState} {isInternal : Bool} {ds : List Expr}

/-- The path condition `ds` has those models of `cs` that are in `P`. -/
structure Narrows (A : Valuation → Prop) (cs : List Expr)
    (P : Valuation → Prop) (ds : List Expr) : Prop where
  path : PathCondition A ds
  models : ∀ σ, A σ → (AllHold σ ds ↔ AllHold σ cs ∧ P σ)

section

variable {P Q : Valuation → Prop} {cs es : List Expr} {c : Expr}

theorem Narrows.refl (h : PathCondition A cs)
    (hP : ∀ σ, A σ → AllHold σ cs → P σ) : Narrows A cs P cs :=
  ⟨h, fun σ hA => ⟨fun hσ => ⟨hσ, hP σ hA hσ⟩, And.left⟩⟩

theorem Narrows.congr (h : Narrows A cs P ds)
    (hPQ : ∀ σ, A σ → AllHold σ cs → (P σ ↔ Q σ)) : Narrows A cs Q ds where
  path := h.path
  models σ hA := by
    rw [h.models σ hA]
    exact and_congr_right (hPQ σ hA)

/-- A constraint that was added with the models kept narrows to where it is
true. -/
theorem Rewrites.narrows (h : Rewrites (fun _ => True) (cs ++ [c]) ds)
    (hcs : PathCondition A cs) (hc : Valued A cs c 1) (hsat : ∃ σ, A σ ∧ AllHold σ cs ∧ Holds σ c) :
    Narrows A cs (fun σ => Holds σ c) ds := by
  have hdec : ∀ σ, A σ → AllHold σ (cs ++ [c]) ∨ SomeFails σ (cs ++ [c]) := by
    intro σ hA
    rw [allHold_snoc, someFails_append]
    rcases hcs.decided σ hA with hσ | hσ
    · obtain ⟨x, hx⟩ := hc σ hA hσ
      rcases holds_or_fails hx with h' | h'
      · exact .inl ⟨hσ, h'⟩
      · exact .inr (.inr ⟨c, by simp, h'⟩)
    · exact .inr (.inl hσ)
  refine ⟨⟨h.boolean ?_, fun σ hA => ?_, ?_⟩, fun σ hA => ?_⟩
  · exact boolean_snoc.mpr ⟨hcs.boolean, hc.typed hcs⟩
  · exact (hdec σ hA).imp (h.holds trivial) (h.fails trivial)
  · obtain ⟨σ, hA, hσ, hc⟩ := hsat
    exact ⟨σ, hA, h.holds trivial (allHold_snoc.mpr ⟨hσ, hc⟩)⟩
  · rw [← allHold_snoc]
    refine ⟨fun hds => ?_, h.holds trivial⟩
    exact (hdec σ hA).resolve_right fun hf =>
      hds.not_someFails (h.fails trivial hf)

theorem ConstraintManager.addConstraintBounded_narrows (opt rewriteEqualities : Bool)
    (hcs : PathCondition A cs) (hc : Valued A cs c 1) (hsat : ∃ σ, A σ ∧ AllHold σ cs ∧ Holds σ c) :
    ∃ ds, addConstraintBounded opt rewriteEqualities cs c = .ok ds ∧
      Narrows A cs (fun σ => Holds σ c) ds := by
  obtain ⟨σ, hA, hσ, hcσ⟩ := hsat
  obtain ⟨ds, hds, hrw⟩ := addConstraint_rewrites opt rewriteEqualities
    (boolean_snoc.mpr ⟨hcs.boolean, hc.typed hcs⟩) (allHold_snoc.mpr ⟨hσ, hcσ⟩) le_rfl
  exact ⟨ds, hds, hrw.narrows hcs hc ⟨σ, hA, hσ, hcσ⟩⟩

end

namespace Executor

variable {S : Type} {ex : Executor S} {w : World S} {c : Expr} {n : Nat}
  {P : Valuation → Prop}

section

variable (hs : PathCondition A s.constraints) (hc : Valued A s.constraints c 1)

include hs hc

theorem addConstraint_runs (hsat : ∃ σ, A σ ∧ AllHold σ s.constraints ∧ Holds σ c) :
    Runs (ex.addConstraint s c) w fun t w' => w' = w ∧ ∃ ds,
      t = { s with constraints := ds } ∧
        Narrows A s.constraints (fun σ => Holds σ c) ds := by
  unfold addConstraint
  split
  · next v =>
    have hent := constant_isTrue A s.constraints (hc.typed hs)
    obtain ⟨σ, hA, hσ, hv⟩ := hsat
    split at hent
    · next ht =>
      rw [if_pos ht]
      exact .pure ⟨rfl, _, rfl, .refl hs hent⟩
    · exact absurd (hent σ hA hσ) hv.not_fails
  · obtain ⟨ds, hds, hn⟩ := ConstraintManager.addConstraintBounded_narrows
      ex.solver.constArrayOpt ex.rewriteEqualities hs hc hsat
    exact .except_bind hds (.pure ⟨rfl, _, rfl, hn⟩)

theorem addNegation_runs (hsat : ∃ σ, A σ ∧ AllHold σ s.constraints ∧ Fails σ c) :
    Runs (ex.addNegation s c) w fun t w' => w' = w ∧ ∃ ds,
      t = { s with constraints := ds } ∧
        Narrows A s.constraints (fun σ => Fails σ c) ds := by
  obtain ⟨σ, hA, hσ, hf⟩ := hsat
  refine (addConstraint_runs hs (hc.isZero ex.solver.constArrayOpt)
    ⟨σ, hA, hσ, (holds_isZero _ hf).mpr hf⟩).imp ?_
  rintro t w' ⟨hw, ds, ht, hn⟩
  refine ⟨hw, ds, ht, hn.congr fun σ hA hσ => ?_⟩
  obtain ⟨x, hx⟩ := hc σ hA hσ
  exact holds_isZero _ hx

end

theorem liftSolver_runs {α : Type} {m : SolverM S α} {P : α → S → Prop}
    (h : Runs m w.solver P) :
    Runs (liftSolver m) w fun a w' =>
      w' = { w with solver := w'.solver } ∧ P a w'.solver := by
  obtain ⟨a, s', hm, hP⟩ := h
  exact .get_bind (.except_bind hm (.set_bind (.pure ⟨rfl, hP⟩)))

/-! ## Normal mode -/

/-- No replay, and no limits on forks, memory or depth. -/
structure Unlimited (ex : Executor S) : Prop where
  replayKTest : ex.replayKTest = false
  maxForks : ex.maxForks = none
  maxMemoryInhibit : ex.maxMemoryInhibit = false
  inhibitForking : ex.inhibitForking = false
  maxDepth : ex.maxDepth = 0
  maxStaticPct : ∀ s, ex.reachedMaxStaticPct s = false

/-- No path is replayed, and no simulation is going on. -/
structure NormalMode (w : World S) (s : ExecutionState) : Prop where
  replayPath : w.replayPath = none
  simulation : w.is_simulation_mode = false
  forkDisabled : s.forkDisabled = false

/-- Only the solver and the counters of states and forks may differ. -/
structure Untouched (w w' : World S) : Prop where
  heap : w'.heap = w.heap
  nextObject : w'.nextObject = w.nextObject
  constArrays : w'.constArrays = w.constArrays
  replayPath : w'.replayPath = w.replayPath
  simulation : w'.is_simulation_mode = w.is_simulation_mode
  terminated : w'.terminated = w.terminated

theorem Untouched.trans {w' w'' : World S} (h : Untouched w w')
    (h' : Untouched w' w'') : Untouched w w'' where
  heap := h'.heap.trans h.heap
  nextObject := h'.nextObject.trans h.nextObject
  constArrays := h'.constArrays.trans h.constArrays
  replayPath := h'.replayPath.trans h.replayPath
  simulation := h'.simulation.trans h.simulation
  terminated := h'.terminated.trans h.terminated

/-- `t` is `s` in all that a program can see, and `n` copies away from it. -/
structure Copies (n : Nat) (s t : ExecutionState) : Prop where
  constraints : t.constraints = s.constraints
  stack : t.stack = s.stack
  objects : t.addressSpace.objects = s.addressSpace.objects
  cowKey : t.addressSpace.cowKey = s.addressSpace.cowKey + n
  forkDisabled : t.forkDisabled = s.forkDisabled

theorem Copies.refl : Copies 0 s s := ⟨rfl, rfl, rfl, rfl, rfl⟩

theorem Copies.writePath (h : Copies n s t) (ex : Executor S) (i b : Bool) :
    Copies n s (ex.writePath t i b) := by
  unfold Executor.writePath
  split
  · exact ⟨h.1, h.2, h.3, h.4, h.5⟩
  · exact h

theorem Copies.writeSymPath (h : Copies n s t) (ex : Executor S) (i b : Bool) :
    Copies n s (ex.writeSymPath t i b) := by
  unfold Executor.writeSymPath
  split
  · exact ⟨h.1, h.2, h.3, h.4, h.5⟩
  · exact h

/-- A state that forking `s` leaves, with those models that are in `P`. -/
structure Child (A P : Valuation → Prop) (n : Nat) (s t : ExecutionState) :
    Prop where
  narrows : Narrows A s.constraints P t.constraints
  stack : t.stack = s.stack
  objects : t.addressSpace.objects = s.addressSpace.objects
  cowKey : t.addressSpace.cowKey = s.addressSpace.cowKey + n
  forkDisabled : t.forkDisabled = s.forkDisabled

theorem Copies.child (h : Copies n s t) (hn : Narrows A t.constraints P ds) :
    Child A P n s { t with constraints := ds } :=
  ⟨h.constraints ▸ hn, h.stack, h.objects, h.cowKey, h.forkDisabled⟩

theorem Copies.child_self (h : Copies n s t) (hs : PathCondition A s.constraints)
    (hP : ∀ σ, A σ → AllHold σ s.constraints → P σ) : Child A P n s t := by
  refine ⟨?_, h.stack, h.objects, h.cowKey, h.forkDisabled⟩
  rw [h.constraints]
  exact .refl hs hP

/-- The two sides of a fork on `c`: each has a state just when it has models,
and both are copies when there are two. -/
structure Splits (A : Valuation → Prop) (c : Expr) (s : ExecutionState)
    (sides : Option ExecutionState × Option ExecutionState) : Prop where
  left : ∀ t, sides.1 = some t →
    Child A (fun σ => Holds σ c) (if sides.2.isSome then 1 else 0) s t
  right : ∀ t, sides.2 = some t →
    Child A (fun σ => Fails σ c) (if sides.1.isSome then 1 else 0) s t
  left_iff : sides.1.isSome ↔ ∃ σ, A σ ∧ AllHold σ s.constraints ∧ Holds σ c
  right_iff : sides.2.isSome ↔ ∃ σ, A σ ∧ AllHold σ s.constraints ∧ Fails σ c

section

variable (hex : ex.Unlimited) (hw : NormalMode w s)

include hex hw

/-- In normal mode no branch is chosen for the program. -/
theorem chooseBranch_runs {res : Validity} : Runs (ex.chooseBranch s c isInternal res) w fun p w' =>
      (s, res) = p ∧ w = w' := by
  have hpermitted : Runs (ex.branchingPermitted s) w fun b w' =>
      true = b ∧ w = w' := by
    refine .get_bind (.pure ⟨?_, rfl⟩)
    simp [hex.maxMemoryInhibit, hw.forkDisabled, hex.inhibitForking, hex.maxForks]
  unfold chooseBranch
  refine .get_bind ?_
  rw [hw.replayPath]
  cases isInternal <;> simp only <;> split
  case false.isFalse | true.isFalse => exact .pure ⟨rfl, rfl⟩
  all_goals
    rw [if_neg (by simp [hex.replayKTest])]
    refine .bind_eq hpermitted ?_
    exact .pure ⟨rfl, rfl⟩

variable (hs : PathCondition A s.constraints) (hc : Valued A s.constraints c 1)

include hs hc

theorem forkBoth_runs (hT : ∃ σ, A σ ∧ AllHold σ s.constraints ∧ Holds σ c)
    (hF : ∃ σ, A σ ∧ AllHold σ s.constraints ∧ Fails σ c) :
    Runs (ex.forkBoth s c isInternal) w fun sides w' =>
      Untouched w w' ∧ w'.solver = w.solver ∧ Splits A c s sides := by
  unfold forkBoth
  refine .get_bind ?_
  rw [if_neg (by simp [hw.simulation])]
  refine .set_bind ?_
  simp only
  -- Each side starts as a copy, with one more branch on record.
  have hcopy : Copies 1 s (s.branch w.nextID).1 ∧
      Copies 1 s (s.branch w.nextID).2 :=
    ⟨⟨rfl, rfl, rfl, rfl, rfl⟩, ⟨rfl, rfl, rfl, rfl, rfl⟩⟩
  obtain ⟨ht, hf⟩ := hcopy
  replace ht := (ht.writePath ex isInternal true).writeSymPath ex isInternal true
  replace hf := (hf.writePath ex isInternal false).writeSymPath ex isInternal
    false
  refine .bind (addConstraint_runs (A := A) (ht.constraints ▸ hs)
    (ht.constraints ▸ hc) (ht.constraints ▸ hT)) ?_
  rintro _ _ ⟨rfl, ds, rfl, hds⟩
  refine .bind (addNegation_runs (A := A) (hf.constraints ▸ hs)
    (hf.constraints ▸ hc) (hf.constraints ▸ hF)) ?_
  rintro _ _ ⟨rfl, es, rfl, hes⟩
  rw [if_neg (by simp [hex.maxDepth])]
  refine .pure ⟨⟨rfl, rfl, rfl, rfl, rfl, rfl⟩, rfl, ?_, ?_, ?_, ?_⟩
  · rintro _ ⟨⟩
    exact ht.child hds
  · rintro _ ⟨⟩
    exact hf.child hes
  · exact iff_of_true rfl hT
  · exact iff_of_true rfl hF

/-- `fork` in normal mode, over a correct solver that answers. -/
theorem fork_runs {Inv : S → Prop} (isInternal : Bool)
    (hsolver : ex.solver.solver.Correct A False Inv) (hInv : Inv w.solver) :
    Runs (ex.fork s c isInternal) w fun sides w' =>
      Untouched w w' ∧ Inv w'.solver ∧ Splits A c s sides := by
  unfold fork
  have hchecks : ex.maxStaticPctChecks s c = pure (s, c) := by
    unfold maxStaticPctChecks
    simp [hex.maxStaticPct]
  rw [hchecks, pure_bind]
  refine .bind (liftSolver_runs (TimingSolver.evaluate_runs hsolver hs hc hInv)) ?_
  rintro (_ | res) w' ⟨hw', hInv', hres⟩
  · exact hres.elim
  have hun : Untouched w w' := by
    rw [hw']
    exact ⟨rfl, rfl, rfl, rfl, rfl, rfl⟩
  have hnormal : NormalMode w' s := ⟨hun.replayPath.trans hw.replayPath,
    hun.simulation.trans hw.simulation, hw.forkDisabled⟩
  refine .bind_eq (chooseBranch_runs hex hnormal) ?_
  obtain ⟨σ, hA, hσ⟩ := hs.satisfiable
  cases res with
  | true =>
    -- No model is on the other side.
    have hent : ∀ σ, A σ → AllHold σ s.constraints → Holds σ c := hres
    refine .pure ⟨hun, hInv', ?_, by rintro _ ⟨⟩, ?_, ?_⟩
    · rintro _ ⟨⟩
      have := (Copies.refl (s := s)).writePath ex isInternal true
      exact this.child_self hs hent
    · exact iff_of_true rfl ⟨σ, hA, hσ, hent σ hA hσ⟩
    · refine iff_of_false (by simp) ?_
      rintro ⟨σ', hA', hσ', hf⟩
      exact (hent σ' hA' hσ').not_fails hf
  | false =>
    have href : ∀ σ, A σ → AllHold σ s.constraints → Fails σ c := hres
    refine .pure ⟨hun, hInv', by rintro _ ⟨⟩, ?_, ?_, ?_⟩
    · rintro _ ⟨⟩
      have := (Copies.refl (s := s)).writePath ex isInternal false
      exact this.child_self hs href
    · refine iff_of_false (by simp) ?_
      rintro ⟨σ', hA', hσ', hh⟩
      exact Holds.not_fails hh (href σ' hA' hσ')
    · exact iff_of_true rfl ⟨σ, hA, hσ, href σ hA hσ⟩
  | unknown =>
    obtain ⟨hne, hnr⟩ := hres
    simp only [Query.Entailed, Query.Refuted, not_forall] at hne hnr
    obtain ⟨σF, hAF, hσF, hF⟩ := hne
    obtain ⟨σT, hAT, hσT, hT⟩ := hnr
    obtain ⟨x, hx⟩ := hc σF hAF hσF
    obtain ⟨y, hy⟩ := hc σT hAT hσT
    refine (forkBoth_runs hex hnormal hs hc ⟨σT, hAT, hσT, (holds_or_fails hy).resolve_right hT⟩
      ⟨σF, hAF, hσF, (holds_or_fails hx).resolve_left hF⟩).imp ?_
    rintro sides w'' ⟨hun', hsol, hsplit⟩
    exact ⟨hun.trans hun', hsol ▸ hInv', hsplit⟩

end

end Executor

/-! ## What a program sees -/

/-- The register `reg` of the stack frame `frame`. -/
def ExecutionState.register (s : ExecutionState) (frame reg : Nat) :
    Option Expr := s.stack[frame]?.bind (· reg)

/-- The contents of a memory object in a state. -/
def World.contents {S : Type} (w : World S) (s : ExecutionState)
    (mo : MemoryObject) : Option ObjectState :=
  (s.addressSpace.findObject mo).map w.heap

/-- The states agree on every register and on the bytes of every object. -/
def World.Agrees {S : Type} (w : World S) (s : ExecutionState) (w' : World S)
    (t : ExecutionState) : Prop :=
  (∀ frame reg, t.register frame reg = s.register frame reg) ∧
    ∀ mo, w'.contents t mo = w.contents s mo

theorem Executor.Child.agrees {S : Type} {P : Valuation → Prop} {n : Nat}
    {w w' : World S} (h : Child A P n s t) (hw : Untouched w w') : w.Agrees s w' t := by
  refine ⟨fun frame reg => ?_, fun mo => ?_⟩
  · rw [ExecutionState.register, h.stack, ExecutionState.register]
  · rw [World.contents, AddressSpace.findObject, h.objects, hw.heap]
    rfl

/-- Forking a state in normal mode: a side has a state exactly when it has a
model, the path condition of that state is the old one with the condition (or
its negation), and the state agrees with the old one on every register and
memory byte. Models come from any set `A` of valuations that the solver is
correct for, the path condition is never undecided for a division by zero, and
the condition has a value under each of its models. -/
theorem Executor.fork_splits {S : Type} (ex : Executor S)
    (A : Valuation → Prop) (Inv : S → Prop) (w : World S) (s : ExecutionState)
    (c : Expr) (isInternal : Bool) (hex : ex.Unlimited) (hw : NormalMode w s)
    (hsolver : ex.solver.solver.Correct A False Inv) (hInv : Inv w.solver)
    (hs : PathCondition A s.constraints) (hc : Valued A s.constraints c 1) :
    ∃ trueState falseState w',
      ex.fork s c isInternal w = .ok ((trueState, falseState), w') ∧
      (trueState.isSome ↔ ∃ σ, A σ ∧ AllHold σ s.constraints ∧ Holds σ c) ∧
      (falseState.isSome ↔ ∃ σ, A σ ∧ AllHold σ s.constraints ∧ Fails σ c) ∧
      (∀ t, trueState = some t → w.Agrees s w' t ∧ ∀ σ, A σ →
        (AllHold σ t.constraints ↔ AllHold σ s.constraints ∧ Holds σ c)) ∧
      (∀ t, falseState = some t → w.Agrees s w' t ∧ ∀ σ, A σ →
        (AllHold σ t.constraints ↔ AllHold σ s.constraints ∧ Fails σ c)) := by
  obtain ⟨sides, w', hrun, hun, -, hsplit⟩ :=
    fork_runs hex hw hs hc isInternal hsolver hInv
  refine ⟨sides.1, sides.2, w', hrun, hsplit.left_iff, hsplit.right_iff,
    fun t ht => ?_, fun t ht => ?_⟩
  · have := hsplit.left t ht
    exact ⟨this.agrees hun, this.narrows.models⟩
  · have := hsplit.right t ht
    exact ⟨this.agrees hun, this.narrows.models⟩

/-- An executor in normal mode over the ideal solver. -/
noncomputable def Executor.ideal : Executor Unit where
  solver := ⟨.ideal fun _ => True, true, true⟩
  rewriteEqualities := true
  ctx := ⟨64, true⟩
  simplifySymIndices := true
  maxSymArraySize := 0
  optimizeExpr := id
  maxDepth := 0
  maxForks := none
  maxMemoryInhibit := false
  inhibitForking := false
  replayKTest := false
  pathWriter := false
  symPathWriter := false
  reachedMaxStaticPct _ := false
  pageSize := 4096
  isDeterministic := false
  locationInfo _ _ _ := none

/-- The start of a run: no object exists yet. -/
def World.initial : World Unit where
  solver := ()
  heap _ := ⟨0, fun _ => 0, none, none, none, none, .null, 4, false, Array.four.size_lt⟩
  nextObject := 0
  constArrays := 0
  nextID := 1
  forks := 0
  inhibitedForks := 0
  atMemoryLimit := false
  replayPath := none
  theRNG _ := false
  is_simulation_mode := false
  terminated := []

/-- A state that has done nothing, under some constraints. -/
def ExecutionState.initial (constraints : List Expr) : ExecutionState where
  id := 0
  isSimulationState := false
  pc := 0
  prevPC := 0
  stack := [fun _ => none]
  depth := 0
  addressSpace := ⟨1, []⟩
  constraints := constraints
  pathOS := []
  symPathOS := []
  coveredNew := false
  coveredLines := []
  forkDisabled := false
  stack_ne := by simp

/-- Under `arr[1] < arr[0]`, fork on `arr[0] = 3`. -/
theorem Executor.fork_splits_read :
    let read (i : Nat) := Expr.read Array.four .null (Expr.const i 32)
    let s := ExecutionState.initial [.cmp .ult (read 1) (read 0)]
    let c := Expr.cmp .eq (Expr.const 3 8) (read 0)
    PathCondition (fun _ => True) s.constraints ∧
      Valued (fun _ => True) s.constraints c 1 ∧
      ∃ trueState falseState w',
        Executor.ideal.fork s c false .initial =
          .ok ((trueState, falseState), w') ∧
        (trueState.isSome ↔ ∃ σ, True ∧ AllHold σ s.constraints ∧ Holds σ c) ∧
        (falseState.isSome ↔ ∃ σ, True ∧ AllHold σ s.constraints ∧ Fails σ c) ∧
        (∀ t, trueState = some t → World.initial.Agrees s w' t ∧ ∀ σ, True →
          (AllHold σ t.constraints ↔ AllHold σ s.constraints ∧ Holds σ c)) ∧
        (∀ t, falseState = some t → World.initial.Agrees s w' t ∧ ∀ σ, True →
          (AllHold σ t.constraints ↔ AllHold σ s.constraints ∧ Fails σ c)) := by
  intro read s c
  have hs : PathCondition (fun _ => True) s.constraints :=
    pathCondition_descending
  have hc : Valued (fun _ => True) s.constraints c 1 := fun σ _ _ =>
    ⟨_, denotes_eq_four σ 3⟩
  exact ⟨hs, hc, Executor.fork_splits .ideal (fun _ => True) (fun _ => True)
    .initial s c false ⟨rfl, rfl, rfl, rfl, rfl, fun _ => rfl⟩ ⟨rfl, rfl, rfl⟩
    (SolverImpl.ideal_correct _) trivial hs hc⟩

end VitalSE
