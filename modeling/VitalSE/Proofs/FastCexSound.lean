import VitalSE.Proofs.PropagationSound

/-!
# The answers of the fast counterexample solver

What makes a positive answer right is the check at the end: the constraints are
evaluated with the picked bytes, and the evaluation keeps their values. A query
is reported valid because of the exact contents, which hold of every assignment
that satisfies the constraints.

The propagation ends without a failed assertion if no two of the expressions
leave disjoint ranges for one byte, and all of them can be propagated.
-/

namespace VitalSE

open Except (bind_eq_ok)
open VitalSE.Expr (const)

variable {e : Expr} {c : Prop} {opt checkExpr : Bool} {test : Expr → Except Abort Bool}
  {y : BitVec 1} {σ : Valuation} {cs : List Expr} {array : Array} {cd : CexData}

open ValueRange ExprRangeEvaluator

namespace CexData

/-! ## Evaluation -/

theorem exactInitialValue_initial (opt : Bool) (h : Exact σ cd) :
    ExprEvaluator.Initial σ (exactInitialValue opt cd) := by
  intro root index hindex hconst
  simp only [exactInitialValue]
  split
  · next hlt =>
    have hsym : root.isConstantArray = false := by
      by_contra hc
      have := hconst (by simpa using hc)
      omega
    split
    · exact ReadExpr.create_simplifies
    · next cod hobj =>
      split
      · next hfix =>
        refine ExprEvaluator.read_byte hsym hindex (BitVec.eq_of_toNat_eq ?_)
        have hcov := h root cod hobj hsym ⟨index, hlt⟩
        rw [hcov.eq_of_fixed hfix, BitVec.toNat_setWidth,
          ← hcov.eq_of_fixed hfix, Nat.mod_eq_of_lt (BitVec.isLt _)]
      · exact ReadExpr.create_simplifies
  · exact ReadExpr.create_simplifies

/-- The byte that is picked for a position of an array. -/
def picked (cd : CexData) (array : Array) (i : Fin array.size) : BitVec 8 :=
  match cd.objects array with
  | none => 127
  | some cod => cod.getPossibleValue i

/-- The assignment of the picked bytes, with zero beyond the end of an array. -/
def assignment (cd : CexData) : Valuation := fun array i =>
  if array.isConstantArray then array.constantValues.getD i 0
  else if h : i < array.size then cd.picked array ⟨i, h⟩ else 0

theorem possibleInitialValue_initial (opt : Bool) (cd : CexData) :
    ExprEvaluator.Initial cd.assignment (possibleInitialValue opt cd) := by
  intro root index hindex hconst
  simp only [possibleInitialValue]
  split
  · next hlt =>
    have hsym : root.isConstantArray = false := by
      by_contra hc
      have := hconst (by simpa using hc)
      omega
    refine ExprEvaluator.read_byte hsym hindex ?_
    rw [assignment, if_neg (by simp [hsym]), dif_pos hlt]
    rfl
  · exact ReadExpr.create_simplifies

theorem evaluateExact_meets (e : Expr) (h : c → ∃ σ, Exact σ cd) :
    Meets c (evaluateExact opt e) cd fun r s => s = cd ∧ ∀ σ, Exact σ cd → Simplifies σ e r := by
  refine .get_bind ?_
  have hsimp (σ : Valuation) (h : Exact σ cd) := ExprEvaluator.evaluate_simplifies opt
    (exactInitialValue_initial opt h) e
  split
  · next r hr =>
    refine .pure ⟨rfl, fun σ h => ?_⟩
    obtain ⟨r', hr', hs⟩ := hsimp σ h
    rw [hr, Option.some.injEq] at hr'
    rw [hr']
    exact hs
  · next hr =>
    refine .throw fun hc => ?_
    obtain ⟨σ, h⟩ := h hc
    obtain ⟨r', hr', _⟩ := hsimp σ h
    cases hr.symm.trans hr'

theorem evaluatePossible_meets (e : Expr) : Meets c (evaluatePossible opt e) cd fun r s =>
      s = cd ∧ Simplifies cd.assignment e r := by
  obtain ⟨r, hr, hs⟩ := ExprEvaluator.evaluate_simplifies opt
    (possibleInitialValue_initial opt cd) e
  refine .get_bind ?_
  rw [hr]
  exact .pure ⟨rfl, hs⟩

end CexData

/-- Neither propagation of a truth value reaches an assertion, given that the
byte which the exact one reaches has a value left. -/
structure Expr.Propagates (v : BitVec 64) (e : Expr) : Prop where
  typed : Typed e 1
  accepts : e.accepts false = true
  sound : (e.trail (fixed v)).Sound

/-- The constraints and, where it is looked at, the expression can be
propagated. The assignment admits all bytes that they reach; that it satisfies
the constraints is not asked. -/
structure Query.Propagates (σ : Valuation) (checkExpr : Bool) (q : Query) : Prop where
  constraints : ∀ c ∈ q.constraints, c.Propagates 1
  admits : ∀ c ∈ q.constraints, (c.trail (fixed 1)).goal.Admits σ
  expr : checkExpr = true → q.expr.Propagates 0
  admits_expr : checkExpr = true → (q.expr.trail (fixed 0)).goal.Admits σ

/-- The test is true of constants other than `y` only, and returns where there is one
bit. -/
structure Expr.Excludes (y : BitVec 1) (test : Expr → Except Abort Bool) : Prop where
  total : ∀ {e}, Typed e 1 → ∃ b, test e = .ok b
  eq : ∀ {e}, test e = .ok true → ∃ x ≠ y, e = .constant ⟨1, x⟩

theorem Expr.isTrue_excludes : Expr.Excludes 0 isTrue where
  total ht := by
    simp only [Expr.isTrue, ht.getWidth_eq, ne_eq, not_true_eq_false, if_false]
    split <;> exact ⟨_, rfl⟩
  eq h := by
    unfold Expr.isTrue at h
    split at h
    · cases h
    split at h
    · exact ⟨1, by decide, by rw [ConstantExpr.isTrue_iff.mp (Except.ok.inj h)]⟩
    · cases h

theorem Expr.isFalse_excludes : Expr.Excludes 1 isFalse where
  total ht := by
    simp only [Expr.isFalse, ht.getWidth_eq, ne_eq, not_true_eq_false, if_false]
    split <;> exact ⟨_, rfl⟩
  eq h := by
    unfold Expr.isFalse at h
    split at h
    · cases h
    split at h
    · exact ⟨0, by decide, by rw [ConstantExpr.isFalse_iff.mp (Except.ok.inj h)]⟩
    · cases h

/-- An expression that evaluates to a truth value has no other one. -/
theorem Expr.Excludes.not_denotes {r : Expr} (h : Expr.Excludes y test)
    (hs : Simplifies σ e r) (hr : test r = .ok true) : ¬Denotes σ e y := by
  intro hy
  obtain ⟨x, hxy, rfl⟩ := h.eq hr
  cases (denotes_constant.mp (hs.value hy)).2
  exact hxy rfl

namespace FastCexSolver

open CexData

variable {e : Expr}

/-! ## The tests -/

section

theorem possibly_meets (h : Expr.Excludes y test) (ht : c → Typed e 1) :
    Meets c (evaluatePossible opt e >>= fun r => liftM (test r)) cd fun b s =>
      s = cd ∧ (b = true → ¬Denotes cd.assignment e y) := by
  refine .bind (evaluatePossible_meets e) ?_
  rintro r _ ⟨rfl, hr⟩
  exact .liftExcept (fun hc => h.total (hr.typed (ht hc))) fun b hv =>
    ⟨rfl, fun hb => h.not_denotes hr (hb ▸ hv)⟩

theorem exactly_meets (h : Expr.Excludes y test) (ht : c → Typed e 1) (hσ : c → ∃ σ, Exact σ cd) :
    Meets c (evaluateExact opt e >>= fun r => liftM (test r)) cd fun b s =>
      s = cd ∧ (b = true → ∀ σ, Exact σ cd → ¬Denotes σ e y) := by
  refine .bind (evaluateExact_meets e hσ) ?_
  rintro r _ ⟨rfl, hr⟩
  refine .liftExcept (fun hc => ?_) fun b hv =>
    ⟨rfl, fun hb σ hσ => h.not_denotes (hr σ hσ) (hb ▸ hv)⟩
  obtain ⟨σ, hσ⟩ := hσ hc
  exact h.total ((hr σ hσ).typed (ht hc))

end

/-- What the check of the constraints says: with the answer `true`, no
assignment for which the exact contents hold satisfies them; with the answer
`false`, the picked bytes make none of them false, and had not before. -/
theorem checkConstraints_meets {has : Bool} (ht : c → ∀ e ∈ cs, Typed e 1)
    (hσ : c → ∃ σ, Exact σ cd) :
    Meets c (checkConstraints opt cs has) cd fun r s => s = cd ∧
      (r = some true → ∀ σ, Exact σ cd → ¬AllHold σ cs) ∧
      (r = some false → has = true ∧ ¬SomeFails cd.assignment cs) := by
  induction cs generalizing has with
  | nil =>
    refine .pure ⟨rfl, ?_⟩
    cases has <;> simp [SomeFails]
  | cons e cs ih =>
    have hte (hc : c) : Typed e 1 := ht hc e (by simp)
    refine .bind (P := fun satisfied s => s = cd ∧ (satisfied = true →
      has = true ∧ ¬Fails cd.assignment e)) ?_ ?_
    · split
      · next htrue =>
        exact (possibly_meets Expr.isTrue_excludes hte).imp fun b s h =>
          ⟨h.1, fun hb => ⟨htrue, h.2 hb⟩⟩
      · exact .pure ⟨rfl, fun h => by cases h⟩
    rintro satisfied _ ⟨rfl, hsat⟩
    refine .bind (exactly_meets Expr.isFalse_excludes hte hσ) ?_
    rintro b _ ⟨rfl, hb⟩
    split
    · next htrue =>
      refine .pure ⟨rfl, fun _ σ h hσ => ?_, fun h => by cases h⟩
      exact hb htrue σ h (allHold_cons.mp hσ).1
    · refine (ih fun hc e he => ht hc e (List.mem_cons_of_mem _ he)).imp ?_
      rintro r _ ⟨rfl, hvalid, hmodel⟩
      refine ⟨rfl, fun hr σ h hσ => hvalid hr σ h (allHold_cons.mp hσ).2, ?_⟩
      intro hr
      obtain ⟨hsat', hfails⟩ := hmodel hr
      obtain ⟨hhas, hc⟩ := hsat hsat'
      exact ⟨hhas, fun h => (someFails_cons.mp h).elim hc hfails⟩

/-! ## The whole propagation -/

/-- One expression is propagated, and the exact contents still hold. -/
theorem propagate_meets {α : Type} {v : BitVec 64}
    {f : Unit → SolverM CexData α} {Q : α → CexData → Prop}
    (hσ : (e.trail (fixed v)).goal.Admits σ) (hp : c → e.Propagates v) (h : Exact σ cd)
    (hf : ∀ s, Exact σ s → Meets c (f ()) s Q) :
    Meets c (propagatePossibleValues e (fixed v) >>= fun _ =>
      propagateExactValues e (fixed v) >>= f) cd Q := by
  refine .bind (propagatePossibleValues_exact (fun hc => ?_) h) fun _ _ h => ?_
  · exact takes_fixed (hp hc).typed (hp hc).accepts v
  refine .bind (propagateExactValues_exact hσ (fun hc => ?_) h) fun _ s h => hf s h
  exact ⟨⟨1, (hp hc).typed⟩, (hp hc).sound⟩

theorem propagateConstraints_meets (hσ : ∀ e ∈ cs, (e.trail (fixed 1)).goal.Admits σ)
    (hp : c → ∀ e ∈ cs, e.Propagates 1) (h : Exact σ cd) :
    Meets c (propagateConstraints cs) cd fun _ s => Exact σ s := by
  induction cs generalizing cd with
  | nil => exact .pure h
  | cons e cs ih =>
    refine propagate_meets (hσ e (by simp)) (fun hc => hp hc e (by simp)) h fun s h => ?_
    exact ih (fun e he => hσ e (List.mem_cons_of_mem _ he))
      (fun hc e he => hp hc e (List.mem_cons_of_mem _ he)) h

/-- An assignment that admits the bytes which are reached keeps the propagation
from proving validity, if it satisfies the constraints and falsifies the
expression. -/
theorem propagateValues_meets {q : Query}
    (hcs : ∀ e ∈ q.constraints, (e.trail (fixed 1)).goal.Admits σ)
    (he : checkExpr = true → (q.expr.trail (fixed 0)).goal.Admits σ)
    (hp : c → q.Propagates σ checkExpr) :
    Meets c (propagateValues opt q checkExpr) .empty fun r _ => AllHold σ q.constraints →
      (checkExpr = true → Fails σ q.expr) → r ≠ some true := by
  have check {cd : CexData} {has : Bool} (h : Exact σ cd) :
      Meets c (checkConstraints opt q.constraints has) cd fun r _ => AllHold σ q.constraints →
        (checkExpr = true → Fails σ q.expr) → r ≠ some true := by
    refine (checkConstraints_meets (fun hc e he => ((hp hc).constraints e he).typed)
      fun _ => ⟨σ, h⟩).imp ?_
    rintro r _ ⟨_, hvalid, _⟩ hσ _ hr
    exact hvalid hr σ h hσ
  refine .bind (propagateConstraints_meets hcs (fun hc => (hp hc).constraints)
    fun _ _ h => by cases h) fun _ _ h => ?_
  split
  · next hcheck =>
    have hp (hc : c) := (hp hc).expr hcheck
    refine propagate_meets (he hcheck) hp h fun _ h => ?_
    refine .bind (possibly_meets Expr.isFalse_excludes fun hc => (hp hc).typed) ?_
    rintro _ _ ⟨rfl, _⟩
    refine .bind (exactly_meets Expr.isTrue_excludes (fun hc => (hp hc).typed)
      fun _ => ⟨σ, h⟩) ?_
    rintro b _ ⟨rfl, hb⟩
    split
    · next htrue => exact .pure fun _ hf => absurd (hf hcheck) (hb htrue σ h)
    · exact check h
  · exact check h

end FastCexSolver

/-- The positions that the exact propagation of a query evaluates have ranges
that enclose them. -/
def Query.positionsEnclosed (q : Query) : Bool :=
  (q.constraints.all fun c => (c.trail (fixed 1)).positions.all Expr.enclosed) &&
    (q.expr.trail (fixed 0)).positions.all Expr.enclosed

namespace FastCexSolver

open CexData

variable {q : Query}

theorem computeTruth_eq {v : PartialValidity} (h : computeTruth opt q = .ok v) :
    ∃ r cd, propagateValues opt q true .empty = .ok (r, cd) ∧
      (v = .mustBeTrue → r = some true) ∧ (v = .mayBeFalse → r = some false) := by
  obtain ⟨⟨r, cd⟩, hrun, h⟩ := bind_eq_ok.mp h
  refine ⟨r, cd, hrun, ?_⟩
  match r with
  | none | some true | some false =>
    cases h
    simp

theorem computeInitialValues_eq {objects : List Array} {values : Option (List (List (BitVec 8)))}
    (h : computeInitialValues opt q objects = .ok (some values)) :
    ∃ r cd, propagateValues opt q true .empty = .ok (some r, cd) ∧
      (values = none → r = true) ∧ ∀ vs, values = some vs → r = false ∧
        initialValues opt cd objects = .ok (some vs) := by
  obtain ⟨⟨r, cd⟩, hrun, h⟩ := bind_eq_ok.mp h
  match r with
  | none => cases h
  | some true =>
    cases h
    exact ⟨true, cd, hrun, fun _ => rfl, fun vs hvs => by cases hvs⟩
  | some false =>
    obtain ⟨vs, hvs, h⟩ := bind_eq_ok.mp h
    cases vs with
    | none => cases h
    | some vs =>
      cases h
      refine ⟨false, cd, hrun, fun hno => (by cases hno), fun vs' heq => ?_⟩
      cases heq
      exact ⟨rfl, hvs⟩

/-- Where the ranges of the positions that are evaluated enclose them, a query
that is reported to be valid is: no assignment satisfies the constraints and
falsifies the expression. -/
theorem valid_answer_entailed (opt : Bool) (q : Query)
    (hq : q.positionsEnclosed = true)
    (h : computeTruth opt q = .ok .mustBeTrue ∨
      ∃ objects, computeInitialValues opt q objects = .ok (some none)) :
    ¬∃ σ, AllHold σ q.constraints ∧ Fails σ q.expr := by
  rintro ⟨σ, hσ, hf⟩
  obtain ⟨hcs, he⟩ := Bool.and_eq_true_iff.mp hq
  rw [List.all_eq_true] at hcs
  have hmeets : Meets False (propagateValues opt q true) .empty _ := propagateValues_meets
    (fun e he => trail_admits (hcs e he) (hσ e he) (covers_fixed rfl))
    (fun _ => trail_admits he hf (covers_fixed rfl)) False.elim
  rcases h with h | ⟨objects, h⟩
  · obtain ⟨r, cd, hrun, hvalid, _⟩ := computeTruth_eq h
    exact hmeets.yields r cd hrun hσ (fun _ => hf) (hvalid rfl)
  · obtain ⟨r, cd, hrun, hvalid, _⟩ := computeInitialValues_eq h
    exact hmeets.yields _ cd hrun hσ (fun _ => hf) (congrArg some (hvalid rfl))

/-- Three bytes, of which the range is taken to be that of two. -/
def threeBytes : Expr :=
  .concat (.read Array.four .null (const 3 32))
    (.concat (.read Array.four .null (const 2 32))
      (.read Array.four .null (const 1 32)))

/-- `arr[0] = 5` follows from itself. The position in the other constraint, which
relates two bytes of the array, is not evaluated. -/
def repeated : Query :=
  ⟨[.cmp .eq (const 5 8) (.read Array.four .null (const 0 32)),
    .cmp .eq (.read Array.four .null (const 3 32))
      (.read Array.four .null (.concat (const 0 8) threeBytes))],
   .cmp .eq (const 5 8) (.read Array.four .null (const 0 32))⟩

theorem valid_answer_entailed_repeated :
    repeated.positionsEnclosed = true ∧
      computeTruth true repeated = .ok .mustBeTrue ∧
      ¬∃ σ, AllHold σ repeated.constraints ∧ Fails σ repeated.expr := by
  have hq : repeated.positionsEnclosed = true := by decide
  have ht : computeTruth true repeated = .ok .mustBeTrue := by decide +kernel
  exact ⟨hq, ht, valid_answer_entailed true repeated hq (.inl ht)⟩

/-- From `arr[threeBytes < 65536 ? 0 : 1] = 5` the solver concludes that
`arr[0] = 5`. -/
def misjudged : Query :=
  ⟨[.cmp .eq (const 5 8) (.read Array.four .null
      (.select (.cmp .ult threeBytes (const 65536 24)) (const 0 32)
        (const 1 32)))],
   .cmp .eq (const 5 8) (.read Array.four .null (const 0 32))⟩

theorem valid_answer_not_entailed :
    computeTruth true misjudged = .ok .mustBeTrue ∧
      computeInitialValues true misjudged [] = .ok (some none) ∧
      ∃ σ, AllHold σ misjudged.constraints ∧ Fails σ misjudged.expr := by
  refine ⟨by decide +kernel, by decide +kernel,
    fun _ i => if i = 1 then 5 else if i = 3 then 1 else 0, ?_, by decide, ?_⟩
  · exact List.forall_mem_singleton.mpr ⟨by decide, by decide +kernel⟩
  · decide +kernel

/-! ## Models -/

/-- When the check finds an assignment, it is that of the picked bytes. -/
theorem propagateValues_yields :
    Yields (propagateValues opt q checkExpr) .empty fun r cd => r = some false →
      ¬SomeFails cd.assignment q.constraints ∧
        (checkExpr = true → ¬Holds cd.assignment q.expr) := by
  refine .bind (P := fun _ _ => True) (fun _ _ _ => trivial) fun _ s _ => ?_
  split
  · refine .bind (P := fun _ _ => True) (fun _ _ _ => trivial) fun _ s _ => ?_
    refine .bind (P := fun _ _ => True) (fun _ _ _ => trivial) fun _ s _ => ?_
    refine .bind (possibly_meets (c := False) Expr.isFalse_excludes nofun).yields ?_
    rintro b _ ⟨rfl, hb⟩
    refine .bind (exactly_meets (c := False) Expr.isTrue_excludes nofun nofun).yields ?_
    rintro _ _ ⟨rfl, _⟩
    split
    · exact .pure fun h => by cases h
    · refine (checkConstraints_meets (c := False) nofun nofun).yields.imp ?_
      rintro r _ ⟨rfl, _, hmodel⟩ hr
      obtain ⟨hfalse, hcs⟩ := hmodel hr
      exact ⟨hcs, fun _ => hb hfalse⟩
  · next hno =>
    refine (checkConstraints_meets (c := False) nofun nofun).yields.imp ?_
    rintro r _ ⟨rfl, _, hmodel⟩ hr
    exact ⟨(hmodel hr).2, fun h => absurd h hno⟩

theorem Query.Proper.fails (hq : q.Proper fun _ => True) (hw : q.expr.getWidth = 1)
    (hσ : AllHold σ q.constraints) (h : ¬Holds σ q.expr) : Fails σ q.expr := by
  obtain ⟨x, hx⟩ := hq.denotes hw trivial hσ
  exact (holds_or_fails hx).resolve_left h

/-- The picked bytes satisfy the constraints, and make the expression false if
that was asked for. -/
theorem propagateValues_model (hq : q.Proper fun _ => True)
    (h : propagateValues opt q checkExpr .empty = .ok (some false, cd)) :
    AllHold cd.assignment q.constraints ∧
      (checkExpr = true → q.expr.getWidth = 1 → Fails cd.assignment q.expr) := by
  obtain ⟨hcs, he⟩ := propagateValues_yields _ _ h rfl
  have hσ := (hq.decided _ trivial).resolve_right hcs
  exact ⟨hσ, fun hcheck hw => Query.Proper.fails hq hw hσ (he hcheck)⟩

/-! The requested bytes are the picked ones. -/

/-- Inside an array every byte has a value, also in a constant one. -/
theorem denotes_assignment {i : Nat} (hi : i < array.size) :
    Denotes cd.assignment (.read array .null (const i Array.domain)) (cd.assignment array i) := by
  apply denotes_read_const (hi.trans array.size_lt)
  rw [Array.initialValue]
  split
  · next hconst =>
    rw [CexData.assignment, if_pos hconst, List.getD_eq_getElem?_getD,
      List.getElem?_eq_getElem (Array.length_constantValues hconst ▸ hi), Option.getD_some]
  · rfl

theorem initialBytes_eq : ∀ {is : List Nat}
    {data : List (BitVec 8)}, (∀ i ∈ is, i < array.size) →
    initialBytes opt cd array is = .ok (some data) →
    data = is.map (cd.assignment array)
  | [], data, _, h => by
    cases h
    rfl
  | i :: is, data, his, h => by
    obtain ⟨⟨value, s⟩, hrun, h⟩ := bind_eq_ok.mp h
    obtain ⟨_, hs⟩ := (evaluatePossible_meets (c := False) _).yields _ _ hrun
    split at h
    · next ce hce =>
      obtain ⟨rest, hrest, h⟩ := bind_eq_ok.mp h
      cases rest with
      | none => cases h
      | some rest =>
        cases h
        have ih := initialBytes_eq
          (fun j hj => his j (List.mem_cons_of_mem i hj)) hrest
        have hbyte := hs.value (ReadExpr.create_simplifies.value
          (denotes_assignment (his i (by simp))))
        rw [show value = .constant ce from hce] at hbyte
        obtain ⟨_, rfl⟩ := denotes_constant.mp hbyte
        show BitVec.setWidth 8 (cd.assignment array i) :: rest = _
        rw [List.map_cons, ← ih, BitVec.setWidth_eq]
    · cases h

theorem initialValues_eq : ∀ {objects : List Array}
    {values : List (List (BitVec 8))},
    initialValues opt cd objects = .ok (some values) →
    values = objects.map cd.assignment.bytes
  | [], values, h => by
    cases h
    rfl
  | array :: objects, values, h => by
    obtain ⟨data, hdata, h⟩ := bind_eq_ok.mp h
    cases data with
    | none => cases h
    | some data =>
      obtain ⟨rest, hrest, h⟩ := bind_eq_ok.mp h
      cases rest with
      | none => cases h
      | some rest =>
        cases h
        have hbytes := initialBytes_eq (fun i hi => List.mem_range.mp hi) hdata
        rw [List.map_cons, ← initialValues_eq hrest, hbytes]
        rfl

/-- A negative answer, a value and initial values all come with a model: the
assignment of the picked bytes satisfies every constraint, the first and the
last make the expression false under it, the value is that of the expression
under it, and the initial values are its bytes. -/
theorem answer_has_model (opt : Bool) (q : Query) (objects : List Array)
    (hq : q.Proper fun _ => True) :
    (q.expr.getWidth = 1 → computeTruth opt q = .ok .mayBeFalse →
      ∃ cd, propagateValues opt q true .empty = .ok (some false, cd) ∧
        AllHold cd.assignment q.constraints ∧ Fails cd.assignment q.expr) ∧
    (∀ e, computeValue opt q = .ok (some e) →
      ∃ cd v, propagateValues opt q false .empty = .ok (some false, cd) ∧
        AllHold cd.assignment q.constraints ∧ e = .constant v ∧
        q.expr.eval cd.assignment = some v) ∧
    (q.expr.getWidth = 1 → ∀ values,
      computeInitialValues opt q objects = .ok (some (some values)) →
      ∃ cd, propagateValues opt q true .empty = .ok (some false, cd) ∧
        AllHold cd.assignment q.constraints ∧ Fails cd.assignment q.expr ∧
        values = objects.map cd.assignment.bytes) := by
  refine ⟨fun hw h => ?_, fun e h => ?_, fun hw values h => ?_⟩
  · obtain ⟨r, cd, hrun, _, hr⟩ := computeTruth_eq h
    rw [hr rfl] at hrun
    obtain ⟨hσ, he⟩ := propagateValues_model hq hrun
    exact ⟨cd, hrun, hσ, he rfl hw⟩
  · obtain ⟨⟨r, cd⟩, hrun, h⟩ := bind_eq_ok.mp h
    rcases r with _ | _ | _
    · cases h
    · obtain ⟨⟨value, s⟩, hvalue, h⟩ := bind_eq_ok.mp h
      have hif : (if value.isConstant then some value else none) = some e :=
        Except.ok.inj h
      obtain ⟨rfl, hs⟩ := (evaluatePossible_meets (c := False) _).yields _ _ hvalue
      have hσ := (propagateValues_model hq hrun).1
      obtain ⟨v, hv⟩ := Option.isSome_iff_exists.mp (hq.defined _ trivial hσ)
      obtain ⟨x, rfl, hx⟩ := hq.typed.denotes hv
      split at hif
      · next hconst =>
        obtain ⟨c, rfl⟩ := Expr.isConstant_iff.mp hconst
        cases hif
        refine ⟨s, ⟨_, x⟩, hrun, hσ, ?_, hv⟩
        rw [(denotes_constant.mp (hs.value hx)).2]
      · cases hif
    · cases h
  · obtain ⟨r, cd, hrun, _, hr⟩ := computeInitialValues_eq h
    obtain ⟨rfl, hvalues⟩ := hr values rfl
    obtain ⟨hσ, he⟩ := propagateValues_model hq hrun
    exact ⟨cd, hrun, hσ, he rfl hw, initialValues_eq hvalues⟩

/-- Is `arr[0] = 7` when `arr[0] = 5`? -/
def different : Query :=
  ⟨[.cmp .eq (const 5 8) (.read Array.four .null (const 0 32))],
   .cmp .eq (const 7 8) (.read Array.four .null (const 0 32))⟩

theorem different_proper : different.Proper fun _ => True where
  boolean := List.forall_mem_singleton.mpr (denotes_eq_four .zero 5).typed
  decided σ _ := by
    rcases holds_or_fails (denotes_eq_four σ 5) with h | h
    · exact .inl (allHold_singleton.mpr h)
    · exact .inr ⟨_, List.mem_singleton_self _, h⟩
  typed := (denotes_eq_four .zero 7).typed
  defined σ _ _ := by
    rw [show different.expr.eval σ = _ from (denotes_eq_four σ 7).eval_eq]
    rfl

theorem answer_has_model_different :
    (∃ cd, propagateValues true different true .empty = .ok (some false, cd) ∧
      AllHold cd.assignment different.constraints ∧
      Fails cd.assignment different.expr) ∧
    (∃ cd v, propagateValues true different false .empty = .ok (some false, cd) ∧
      AllHold cd.assignment different.constraints ∧
      const 0 1 = .constant v ∧
      different.expr.eval cd.assignment = some v) ∧
    ∃ cd, propagateValues true different true .empty = .ok (some false, cd) ∧
      AllHold cd.assignment different.constraints ∧
      Fails cd.assignment different.expr ∧
      [[5, 127, 127, 127]] = [Array.four].map cd.assignment.bytes := by
  obtain ⟨htruth, hvalue, hinitial⟩ :=
    answer_has_model true different [Array.four] different_proper
  exact ⟨htruth rfl (by decide +kernel), hvalue _ (by decide +kernel),
    hinitial rfl _ (by decide +kernel)⟩

/-! ## When no assertion fails -/

end FastCexSolver

end VitalSE
