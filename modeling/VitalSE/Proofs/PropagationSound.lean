import VitalSE.Solver.FastCexSolver
import VitalSE.Proofs.EvaluatorSound
import VitalSE.Proofs.RangeSafe
import VitalSE.Proofs.SolverSound

/-!
# The propagation of the fast counterexample solver

The possible contents are guesses, and nothing is claimed about them but that a
byte can be picked from each. A guess is pushed down without failure into an
expression that `accepts` it; what matters is whether the range may be empty,
since that is what the assertions ask.

The exact contents are claimed to hold of every assignment that satisfies the
constraints. Narrowing them follows the value of an expression down to a byte,
and is right as long as the positions of reads and updates are told apart by
ranges that enclose them. They are never contradictory as long as there is such
an assignment, because they hold of it.
-/

namespace VitalSE

open ValueRange ExprRangeEvaluator

variable {b v : BitVec 64} {w : Nat} {e : Expr} {ce : APInt} {cvd range : ValueRange}
  {σ : Valuation} {cd : CexData} {array : Array}

namespace CexData

variable {cod : CexObjectData array.size}

/-- The data of an array, or that of an array nothing is known about. -/
def data (cd : CexData) (array : Array) : CexObjectData array.size :=
  (cd.objects array).getD (.create array.size)

@[simp] theorem setObjectData_self : (cd.setObjectData array cod).objects array = some cod :=
  Function.update_self ..

theorem getObjectData_eq : getObjectData array cd =
    .ok (cd.data array, cd.setObjectData array (cd.data array)) := by
  simp only [getObjectData, data, bind, StateT.bind, get, getThe, MonadStateOf.get,
    StateT.get, pure, Except.pure, Except.bind]
  cases h : cd.objects array with
  | none => rfl
  | some cod =>
    have hsame : cd.setObjectData array cod = cd := by
      simp [setObjectData, ← h, Function.update_eq_self]
    rw [Option.getD_some, hsame]
    rfl

/-! ## Exact contents -/

/-- The exact contents hold of the bytes of `σ`. -/
def Exact (σ : Valuation) (cd : CexData) : Prop :=
  ∀ array cod, cd.objects array = some cod → array.isConstantArray = false →
    ∀ i : Fin array.size, (cod.exactContents i).Covers (σ array i)

theorem Exact.data (h : Exact σ cd) (hsym : array.isConstantArray = false)
    (i : Fin array.size) : ((cd.data array).exactContents i).Covers (σ array i) := by
  cases hobj : cd.objects array with
  | none =>
    rw [CexData.data, hobj]
    exact covers_byte _
  | some cod =>
    rw [CexData.data, hobj]
    exact h array cod hobj hsym i

theorem Exact.set (h : Exact σ cd) (hcod : array.isConstantArray = false → ∀ i : Fin array.size,
      (cod.exactContents i).Covers (σ array i)) : Exact σ (cd.setObjectData array cod) := by
  intro other cod' hobj hsym i
  by_cases heq : other = array
  · subst heq
    rw [setObjectData_self, Option.some.injEq] at hobj
    subst hobj
    exact hcod hsym i
  · exact h other cod' ((Function.update_of_ne heq ..).symm.trans hobj) hsym i

theorem Exact.touch (h : Exact σ cd) :
    Exact σ (cd.setObjectData array (cd.data array)) := h.set h.data

end CexData

/-! ## Guesses -/

/-- The lower end is not the greatest word. -/
def ValueRange.belowMax (r : ValueRange) (w : Nat) : Bool :=
  r.m_min.toNat + 1 < 2 ^ w

/-- A guess for the expression is propagated without a failed assertion. The
range may be empty only with `mayBeEmpty`. -/
def Expr.accepts (mayBeEmpty : Bool) : Expr → Bool
  | .select cond trueExpr falseExpr =>
    cond.evaluable && whenOk (fun c =>
      if c.isFixed then
        if c.m_min ≠ 0 then trueExpr.accepts mayBeEmpty else falseExpr.accepts mayBeEmpty
      else trueExpr.accepts mayBeEmpty && falseExpr.accepts mayBeEmpty) (evaluate cond)
  -- Pieces are cut out of the range, which has to have something in it.
  | .concat left right =>
    !mayBeEmpty && right.getWidth < 64 && left.accepts false &&
      right.accepts false
  -- The range may have no value of the narrow width.
  | .zext src _ => src.getWidth ≤ 64 && src.accepts true
  | .sext _ _ => false
  | .not expr => expr.getWidth ≠ 1 || expr.accepts false
  | .binary .add left right =>
    match left with
    | .constant ce => 64 < ce.width || right.accepts false
    | _ => true
  | .binary .and left right | .binary .or left right =>
    left.getWidth ≠ 1 || (left.evaluable && right.evaluable &&
      left.accepts false && right.accepts false)
  | .cmp .eq left right =>
    match left with
    | .constant ce => 64 < ce.width || right.accepts false
    | _ => true
  -- A fixed operand narrows the other one. Above the greatest word there is nothing.
  | .cmp .ult left right =>
    left.evaluable && right.evaluable && right.getWidth ≤ 64 &&
      whenOk (fun l => whenOk (fun r =>
        if l.isFixed then
          right.accepts true || (l.belowMax right.getWidth && right.accepts false)
        else !r.isFixed || left.accepts false) (evaluate right)) (evaluate left)
  | .cmp .ule left right =>
    left.evaluable && right.evaluable && right.getWidth ≤ 64 &&
      whenOk (fun l => whenOk (fun r =>
        if l.isFixed then right.accepts false
        else !r.isFixed || (left.accepts true ||
          (r.belowMax right.getWidth && left.accepts false))) (evaluate right)) (evaluate left)
  | .cmp .ne _ _ | .cmp .ugt _ _ | .cmp .uge _ _ | .cmp .sgt _ _
  | .cmp .sge _ _ => false
  | _ => true

namespace ValueRange

variable {r : ValueRange}

/-- Something in a range that is not empty. -/
theorem covers_min (h : r.isEmpty = false) : r.Covers r.m_min := by
  have : r.m_min.toNat ≤ r.m_max.toNat := by
    simpa [isEmpty, BitVec.lt_def] using h
  exact ⟨le_rfl, this, r.m_max.isLt⟩

theorem extract_total (lo hi : Nat) (h : r.isEmpty = false) (hlo : lo < 64)
    (hhi : hi - lo ≤ 64) : ∃ r', r.extract lo hi = .ok r' ∧ r'.isEmpty = false := by
  obtain ⟨r', hr', hcov⟩ := (covers_min h).extract hlo hhi
  exact ⟨r', hr', hcov.not_empty⟩

theorem not_empty_iff {a : BitVec 64} :
    (⟨a, b⟩ : ValueRange).isEmpty = false ↔ a.toNat ≤ b.toNat := by
  simp [isEmpty, BitVec.lt_def]

theorem not_empty_elim {p : Prop} (h : r.isEmpty = false) (he : r.isEmpty = true) : p :=
  nomatch h.symm.trans he

theorem from_zero_not_empty : (⟨0, b⟩ : ValueRange).isEmpty = false :=
  not_empty_iff.mpr (Nat.zero_le _)

theorem Covers.up_not_empty {x : BitVec w} (h : r.Covers x)
    (hv : Bits64.maxValueOfNBits w = .ok v) : (⟨r.m_min, v⟩ : ValueRange).isEmpty = false := by
  have hlower := h.lower
  have hx := x.isLt
  rw [not_empty_iff, maxValueOfNBits_eq hv]
  omega

end ValueRange

/-- A guess for the expression is propagated without a failed assertion. -/
def Expr.Takes (e : Expr) (range : ValueRange) : Prop :=
  ∃ w m, Typed e w ∧ e.accepts m = true ∧ (range.isEmpty = true → m = true)

namespace CexData

variable {x : BitVec 8}

section Above

variable {r : ValueRange} (hw : w ≤ 64) (hv : Bits64.maxValueOfNBits w = .ok v)
include hw hv

theorem above_not_empty (hb : r.belowMax w = true) :
    (⟨r.m_min + 1, v⟩ : ValueRange).isEmpty = false := by
  have hlt : r.m_min.toNat + 1 < 2 ^ w := of_decide_eq_true hb
  have hpow := Nat.pow_le_pow_right (n := 2) (by decide) hw
  have hone : (1 : BitVec 64).toNat = 1 := rfl
  rw [not_empty_iff, maxValueOfNBits_eq hv, BitVec.toNat_add, hone]
  omega

/-- What is left for an operand that has to be above the other one. -/
theorem above_accepted {o : Expr}
    (h : (o.accepts true || (r.belowMax w && o.accepts false)) = true) :
    ∃ m, o.accepts m = true ∧ ((⟨r.m_min + 1, v⟩ : ValueRange).isEmpty = true → m = true) := by
  rcases Bool.or_eq_true_iff.mp h with h | h
  · exact ⟨true, h, fun _ => rfl⟩
  · obtain ⟨hb, ho⟩ := Bool.and_eq_true_iff.mp h
    exact ⟨false, ho, not_empty_elim (above_not_empty hw hv hb)⟩

end Above

/-- There is a word other than the constant. -/
theorem differentFrom_total (ht : Typed (.constant ce) w) (hw : ce.width ≤ 64) :
    ∃ r, differentFrom ce = .ok r ∧ r.isEmpty = false := by
  obtain ⟨hpos, rfl⟩ := typed_constant.mp ht
  obtain ⟨v, hv⟩ := maxValueOfNBits_total hw
  have hmax := maxValueOfNBits_eq hv
  simp only [differentFrom]
  split
  · simp only [hv, bind, Except.bind, pure, Except.pure]
    refine ⟨_, rfl, not_empty_iff.mpr ?_⟩
    rw [hmax]
    have := Nat.pow_le_pow_right (n := 2) (by decide) hpos
    show 1 ≤ _
    omega
  · exact ⟨_, rfl, not_empty_iff.mpr (Nat.zero_le _)⟩

/-! What it asks of the operands. -/

section Takes

variable {l r : Expr} {range' : ValueRange}

attribute [local simp] Expr.accepts

theorem takes_of_not_empty (ht : Typed e w) (ha : e.accepts false = true)
    (h : range.isEmpty = false) : e.Takes range := ⟨w, false, ht, ha, not_empty_elim h⟩

theorem takes_fixed (ht : Typed e w) (ha : e.accepts false = true) (v : BitVec 64) :
    e.Takes (fixed v) := takes_of_not_empty ht ha (not_empty_iff.mpr le_rfl)

theorem takes_select {c : Expr} (h : (Expr.select c l r).Takes range) :
    ∃ rc, evaluate c = .ok rc ∧ ((rc.isFixed = true → rc.m_min ≠ 0) → l.Takes range) ∧
      ((rc.isFixed = true → rc.m_min = 0) → r.Takes range) := by
  obtain ⟨w, m, ht, ha, hm⟩ := h
  obtain ⟨hc, ht, hf⟩ := typed_select.mp ht
  obtain ⟨hce, ha⟩ := Bool.and_eq_true_iff.mp ha
  obtain ⟨rc, hrc, _⟩ := evaluate_total hc hce
  have ha := of_whenOk ha hrc
  refine ⟨rc, hrc, ?_⟩
  split_ifs at ha with hfix hne
  · exact ⟨fun _ => ⟨w, m, ht, ha, hm⟩, fun h => absurd (h hfix) hne⟩
  · exact ⟨fun h => absurd (h hfix) hne, fun _ => ⟨w, m, hf, ha, hm⟩⟩
  · obtain ⟨hta, hfa⟩ := Bool.and_eq_true_iff.mp ha
    exact ⟨fun _ => ⟨w, m, ht, hta, hm⟩, fun _ => ⟨w, m, hf, hfa, hm⟩⟩

theorem takes_concat (h : (Expr.concat l r).Takes range) :
    (∃ r1, range.extract r.getWidth (r.getWidth + r.getWidth) = .ok r1 ∧ l.Takes r1) ∧
      ∃ r2, range.extract 0 r.getWidth = .ok r2 ∧ r.Takes r2 := by
  obtain ⟨w, m, ht, ha, hm⟩ := h
  obtain ⟨u, v, hl, hr, rfl⟩ := typed_concat.mp ht
  simp only [Expr.accepts, Bool.and_eq_true, decide_eq_true_eq, Bool.not_eq_true'] at ha
  obtain ⟨⟨⟨rfl, hv⟩, hla⟩, hra⟩ := ha
  have hne : range.isEmpty = false := by
    by_contra h
    exact absurd (hm (by simpa using h)) (by decide)
  obtain ⟨r1, h1, hne1⟩ := extract_total _ (r.getWidth + r.getWidth) hne hv (by omega)
  obtain ⟨r2, h2, hne2⟩ := extract_total 0 r.getWidth hne (by decide) (by omega)
  exact ⟨⟨r1, h1, takes_of_not_empty hl hla hne1⟩, r2, h2, takes_of_not_empty hr hra hne2⟩

theorem takes_zext (h : (Expr.zext e w).Takes range) :
    ∃ r, full e.getWidth = .ok r ∧ e.Takes (range.setIntersection r) := by
  obtain ⟨_, m, ht, ha, -⟩ := h
  obtain ⟨_, u, hu, _⟩ := typed_zext.mp ht
  obtain ⟨hw, hsa⟩ := Bool.and_eq_true_iff.mp ha
  obtain ⟨r, hr, _⟩ := full_exists (of_decide_eq_true hw)
  exact ⟨r, hr, u, true, hu, hsa, fun _ => rfl⟩

theorem takes_not (h : (Expr.not e).Takes range) (hw : e.getWidth = 1) (v : BitVec 64) :
    e.Takes (fixed v) := by
  obtain ⟨w, m, ht, ha, -⟩ := h
  exact takes_fixed (typed_not.mp ht) (by simpa [hw] using ha) v

theorem takes_add (h : (Expr.binary .add (.constant ce) r).Takes range) (hw : ce.width ≤ 64)
    (hne : range'.isEmpty = false) : r.Takes range' := by
  obtain ⟨w, m, ht, ha, -⟩ := h
  refine takes_of_not_empty (typed_binary.mp ht).2 ?_ hne
  simpa [Nat.not_lt.mpr hw] using ha

theorem takes_junction {k : BinaryKind} (hk : k = .and ∨ k = .or)
    (h : (Expr.binary k l r).Takes range) (hw : l.getWidth = 1) :
    ∃ rl, evaluate l = .ok rl ∧ ∃ rr, evaluate r = .ok rr ∧
      (∀ v, l.Takes (fixed v)) ∧ ∀ v, r.Takes (fixed v) := by
  obtain ⟨w, m, ht, ha, -⟩ := h
  obtain ⟨hl, hr⟩ := typed_binary.mp ht
  obtain ⟨⟨⟨hle, hre⟩, hla⟩, hra⟩ : ((l.evaluable = true ∧ r.evaluable = true) ∧
      l.accepts false = true) ∧ r.accepts false = true := by
    rcases hk with rfl | rfl <;> simpa [hw] using ha
  obtain ⟨rl, hrl, _⟩ := evaluate_total hl hle
  obtain ⟨rr, hrr, _⟩ := evaluate_total hr hre
  exact ⟨rl, hrl, rr, hrr, takes_fixed hl hla, takes_fixed hr hra⟩

theorem takes_eq (h : (Expr.cmp .eq (.constant ce) r).Takes range) (hw : ce.width ≤ 64) :
    (∀ v, r.Takes (fixed v)) ∧ ∃ d, differentFrom ce = .ok d ∧ r.Takes d := by
  obtain ⟨_, m, ht, ha, -⟩ := h
  obtain ⟨rfl, u, hl, hr⟩ := typed_cmp.mp ht
  have hra : r.accepts false = true := by simpa [Nat.not_lt.mpr hw] using ha
  obtain ⟨d, hd, hne⟩ := differentFrom_total hl hw
  exact ⟨takes_fixed hr hra, d, hd, takes_of_not_empty hr hra hne⟩

theorem takes_ult (h : (Expr.cmp .ult l r).Takes range) :
    ∃ rl, evaluate l = .ok rl ∧ ∃ rr, evaluate r = .ok rr ∧
      ∃ v, Bits64.maxValueOfNBits r.getWidth = .ok v ∧
        (rl.isFixed = true → r.Takes ⟨rl.m_min + 1, v⟩ ∧ r.Takes ⟨0, rl.m_min⟩) ∧
          (¬rl.isFixed = true → rr.isFixed = true →
            l.Takes ⟨0, rr.m_min - 1⟩ ∧ l.Takes ⟨rr.m_min, v⟩) := by
  obtain ⟨_, m, ht, ha, -⟩ := h
  obtain ⟨rfl, u, hl, hr⟩ := typed_cmp.mp ht
  simp only [Expr.accepts, Bool.and_eq_true, decide_eq_true_eq, hr.getWidth_eq] at ha
  obtain ⟨⟨⟨hle, hre⟩, hu⟩, ha⟩ := ha
  obtain ⟨rl, hrl, _, hx⟩ := evaluate_total hl hle
  obtain ⟨rr, hrr, _, hy⟩ := evaluate_total hr hre
  obtain ⟨v, hv⟩ := maxValueOfNBits_total hu
  have ha := of_whenOk ha hrl
  have ha := of_whenOk ha hrr
  rw [hr.getWidth_eq]
  refine ⟨rl, hrl, rr, hrr, v, hv, fun hfix => ?_, fun hfix hfix' => ?_⟩
  · rw [if_pos hfix] at ha
    obtain ⟨m, hra, hm⟩ := above_accepted hu hv ha
    exact ⟨⟨u, m, hr, hra, hm⟩, u, m, hr, hra, not_empty_elim from_zero_not_empty⟩
  · rw [if_neg hfix, hfix'] at ha
    exact ⟨takes_of_not_empty hl ha from_zero_not_empty,
      takes_of_not_empty hl ha (hy.up_not_empty hv)⟩

theorem takes_ule (h : (Expr.cmp .ule l r).Takes range) :
    ∃ rl, evaluate l = .ok rl ∧ ∃ rr, evaluate r = .ok rr ∧
      ∃ v, Bits64.maxValueOfNBits r.getWidth = .ok v ∧
        (rl.isFixed = true → r.Takes ⟨rl.m_min, v⟩ ∧ r.Takes ⟨0, rl.m_min - 1⟩) ∧
          (¬rl.isFixed = true → rr.isFixed = true →
            l.Takes ⟨0, rr.m_min⟩ ∧ l.Takes ⟨rr.m_min + 1, v⟩) := by
  obtain ⟨_, m, ht, ha, -⟩ := h
  obtain ⟨rfl, u, hl, hr⟩ := typed_cmp.mp ht
  simp only [Expr.accepts, Bool.and_eq_true, decide_eq_true_eq, hr.getWidth_eq] at ha
  obtain ⟨⟨⟨hle, hre⟩, hu⟩, ha⟩ := ha
  obtain ⟨rl, hrl, _, hx⟩ := evaluate_total hl hle
  obtain ⟨rr, hrr, _, hy⟩ := evaluate_total hr hre
  obtain ⟨v, hv⟩ := maxValueOfNBits_total hu
  have ha := of_whenOk ha hrl
  have ha := of_whenOk ha hrr
  rw [hr.getWidth_eq]
  refine ⟨rl, hrl, rr, hrr, v, hv, fun hfix => ?_, fun hfix hfix' => ?_⟩
  · rw [if_pos hfix] at ha
    exact ⟨takes_of_not_empty hr ha (hx.up_not_empty hv),
      takes_of_not_empty hr ha from_zero_not_empty⟩
  · rw [if_neg hfix, hfix'] at ha
    obtain ⟨m, hla, hm⟩ := above_accepted hu hv ha
    exact ⟨⟨u, m, hl, hla, not_empty_elim from_zero_not_empty⟩, u, m, hl, hla, hm⟩

end Takes

/-! Guessing does not touch the exact contents, and fails no assertion where the
guess is taken. -/

section Guesses

variable {c : Prop}

theorem getObjectData_bind {α : Type} {f : CexObjectData array.size → SolverM CexData α}
    {Q : α → CexData → Prop}
    (h : Meets c (f (cd.data array)) (cd.setObjectData array (cd.data array)) Q) :
    Meets c (getObjectData array >>= f) cd Q := by
  refine Meets.bind (P := fun cod s => cod = cd.data array ∧
    s = cd.setObjectData array (cd.data array)) ⟨fun _ => ⟨_, getObjectData_eq⟩, ?_⟩ ?_
  · intro a s heq
    rw [getObjectData_eq] at heq
    cases heq
    exact ⟨rfl, rfl⟩
  · rintro _ _ ⟨rfl, rfl⟩
    exact h

theorem possibleByte_exact {i : Nat} (h : Exact σ cd) :
    Meets c (possibleByte array i range (cd.data array))
      (cd.setObjectData array (cd.data array)) fun _ s => Exact σ s := by
  unfold possibleByte
  split
  · split
    · exact .modify (h.touch.set h.data)
    · simp only
      split
      · exact .modify (h.touch.set h.data)
      · exact .pure h.touch
  · exact .pure h.touch

theorem propagatePossibleValues_exact : ∀ {e : Expr} {range : ValueRange}
    {cd : CexData}, (c → e.Takes range) → Exact σ cd →
    Meets c (propagatePossibleValues e range) cd fun _ s => Exact σ s
  | .constant _, _, _, _, h => .pure h
  | .notOptimized _, _, _, _, h => .pure h
  | .extract .., _, _, _, h => .pure h
  | .read root head index, range, cd, _, h => by
    refine getObjectData_bind ?_
    split
    · exact possibleByte_exact h
    · exact .pure h.touch
  | .select e t f, range, cd, hp, h => by
    refine .except_bind (fun hc => takes_select (hp hc)) fun rc _ htf => ?_
    split
    · split
      · next hne => exact propagatePossibleValues_exact (fun hc => (htf hc).1 fun _ => hne) h
      · next hne =>
        exact propagatePossibleValues_exact (fun hc => (htf hc).2 fun _ => not_not.mp hne) h
    · next hfix =>
      exact .bind (propagatePossibleValues_exact (fun hc => (htf hc).1 (absurd · hfix)) h)
        fun _ _ h => propagatePossibleValues_exact (fun hc => (htf hc).2 (absurd · hfix)) h
  | .concat l r, range, cd, hp, h => by
    refine .except_bind (fun hc => (takes_concat (hp hc)).1) fun _ _ hl => ?_
    refine .bind (propagatePossibleValues_exact hl h) fun _ _ h => ?_
    exact .except_bind (fun hc => (takes_concat (hp hc)).2) fun _ _ hr =>
      propagatePossibleValues_exact hr h
  | .zext src w, range, cd, hp, h =>
    .except_bind (fun hc => takes_zext (hp hc)) fun _ _ hs =>
      propagatePossibleValues_exact hs h
  | .sext src w, range, cd, hp, h => by
    have hno : ¬ c := fun hc => by
      obtain ⟨_, _, _, ha, _⟩ := hp hc
      cases ha
    exact .except_bind (p := fun _ => False) (fun hc => absurd hc hno) fun _ _ hs =>
      propagatePossibleValues_exact (fun hc => (hs hc).elim) h
  | .not e, range, cd, hp, h => by
    unfold propagatePossibleValues
    split
    · next hcond =>
      obtain ⟨hw, _⟩ := Bool.and_eq_true_iff.mp hcond
      exact propagatePossibleValues_exact
        (fun hc => takes_not (hp hc) (of_decide_eq_true hw) _) h
    · exact .pure h
  | .binary k l r, range, cd, hp, h => by
    cases k
    case add =>
      unfold propagatePossibleValues
      split
      · split
        · next hw =>
          split
          · exact .pure h
          · simp only
            split
            · exact .pure h
            · next hne =>
              exact propagatePossibleValues_exact
                (fun hc => takes_add (hp hc) hw (Bool.eq_false_of_not_eq_true hne)) h
        · exact .pure h
      · exact .pure h
    case and | or =>
      unfold propagatePossibleValues
      split
      · next hcond =>
        obtain ⟨hw, _⟩ := Bool.and_eq_true_iff.mp hcond
        refine .except_bind (fun hc => takes_junction (by simp) (hp hc)
          (of_decide_eq_true hw)) fun rl hrl hj => ?_
        refine .except_bind hj fun rr _ hlr => ?_
        split
        · split
          · exact .pure h
          · refine .bind (propagatePossibleValues_exact (fun hc => (hlr hc).1 _) h)
              fun _ _ h => .except_ok hrl ?_
            split
            · exact .pure h
            · exact propagatePossibleValues_exact (fun hc => (hlr hc).2 _) h
        · refine .bind (P := fun _ s => Exact σ s) ?_ fun _ _ h => ?_
          · split
            · exact .pure h
            · exact propagatePossibleValues_exact (fun hc => (hlr hc).1 _) h
          · split
            · exact .pure h
            · exact propagatePossibleValues_exact (fun hc => (hlr hc).2 _) h
      · exact .pure h
    all_goals exact .pure h
  | .cmp k l r, range, cd, hp, h => by
    cases k
    case eq =>
      unfold propagatePossibleValues
      split
      · split
        · split
          · next hw =>
            split
            · exact propagatePossibleValues_exact
                (fun hc => (takes_eq (hp hc) hw).1 _) h
            · exact .except_bind (fun hc => (takes_eq (hp hc) hw).2) fun _ _ hd =>
                propagatePossibleValues_exact hd h
          · exact .pure h
        · exact .pure h
      · exact .pure h
    case ult | ule =>
      unfold propagatePossibleValues
      split
      · first
          | refine .except_bind (fun hc => takes_ult (hp hc)) fun _ _ h1 => ?_
          | refine .except_bind (fun hc => takes_ule (hp hc)) fun _ _ h1 => ?_
        refine .except_bind h1 fun _ _ h2 => .except_bind h2 fun _ _ h3 => ?_
        split
        · next hl =>
          split
          · exact propagatePossibleValues_exact (fun hc => ((h3 hc).1 hl).1) h
          · exact propagatePossibleValues_exact (fun hc => ((h3 hc).1 hl).2) h
        next hl =>
        split
        · next hr =>
          split
          · exact propagatePossibleValues_exact (fun hc => ((h3 hc).2 hl hr).1) h
          · exact propagatePossibleValues_exact (fun hc => ((h3 hc).2 hl hr).2) h
        · exact .pure h
      · exact .pure h
    case slt | sle => exact .pure h
    all_goals
      refine .throw fun hc => ?_
      obtain ⟨_, _, _, ha, _⟩ := hp hc
      cases ha

end Guesses

/-! ## Narrowing the exact contents

Two ranges with a byte in common leave something of one another. -/

theorem narrowMin_covers (hc : cvd.Covers x) (hr : range.Covers x) :
    ∃ r, narrowMin cvd range = .ok r ∧ r.Covers x := by
  have hle : ¬cvd.m_max < range.m_min := Nat.not_lt.mpr (hr.lower.trans hc.upper)
  simp only [narrowMin, hc.min_eq, hc.max_eq, hr.min_eq, bind, Except.bind, if_neg hle]
  split
  · exact ⟨_, rfl, hr.lower, hc.upper, hc.fits⟩
  · exact ⟨_, rfl, hc⟩

theorem narrowMax_covers (hc : cvd.Covers x) (hr : range.Covers x) :
    ∃ r, narrowMax cvd range = .ok r ∧ r.Covers x := by
  have hle : ¬range.m_max < cvd.m_min := Nat.not_lt.mpr (hc.lower.trans hr.upper)
  simp only [narrowMax, hc.min_eq, hc.max_eq, hr.max_eq, bind, Except.bind, if_neg hle]
  split
  · exact ⟨_, rfl, hc.lower, hr.upper, hr.fits⟩
  · exact ⟨_, rfl, hc⟩

@[simp] theorem exactContents_setExactValues {size : Nat}
    {cod : CexObjectData size} {i j : Fin size} {values : ValueRange} :
    (cod.setExactValues i values).exactContents j =
      if j = i then values else cod.exactContents j :=
  Function.update_apply ..

theorem exactByte_exact {c : Prop} {i : ValueRange}
    (hr : i.isFixed = true → array.isConstantArray = false → i.m_min.toNat < array.size →
      range.Covers (σ array i.m_min.toNat))
    (hlt : c → i.isFixed = true → i.m_min.toNat < array.size) (h : Exact σ cd) :
    Meets c (exactByte array i range) cd fun _ s => Exact σ s := by
  unfold exactByte
  split
  · next hfix =>
    split
    · next hconst =>
      split
      · exact .pure h
      · next hout =>
        rw [Array.length_constantValues hconst] at hout
        exact .throw fun hc => hout (hlt hc hfix)
    next hsym =>
    have hsym : array.isConstantArray = false := Bool.eq_false_of_not_eq_true hsym
    refine getObjectData_bind ?_
    split
    · next hin =>
      have hold := h.data hsym ⟨_, hin⟩
      obtain ⟨cvd1, h1, hc1⟩ := narrowMin_covers hold (hr hfix hsym hin)
      obtain ⟨cvd, h2, hcovers⟩ := narrowMax_covers hc1 (hr hfix hsym hin)
      refine .except_ok h1 (.except_ok h2 (.modify (h.touch.set fun hsym' i => ?_)))
      rw [exactContents_setExactValues]
      split
      · next hi' =>
        rw [hi']
        exact hcovers
      · exact h.data hsym' i
    · next hout => exact .throw fun hc => hout (hlt hc hfix)
  · exact .pure h

end CexData

/-! ## What the exact propagation reaches -/

/-- Where the exact propagation of a range ends. -/
inductive Goal where
  | nothing
  /-- A byte, with the range that is left for it. -/
  | byte (root : Array) (position : Nat) (range : ValueRange)
  /-- A comparison that is not canonical. -/
  | invalid

namespace Goal

/-- The byte has a value in the range. -/
def Admits (σ : Valuation) : Goal → Prop
  | .byte root position range => root.isConstantArray = false → position < root.size →
    range.Covers (σ root position)
  | _ => True

/-- There is such a byte. -/
def Inside : Goal → Prop
  | .nothing => True
  | .byte root position _ => position < root.size
  | .invalid => False

end Goal

/-- The way of the exact propagation through an expression: the positions whose
ranges it evaluates, and where it ends. -/
structure Trail where
  positions : List Expr := []
  goal : Goal := .nothing

/-- The range of a position is evaluated first. -/
def Trail.look (index : Expr) (rest : ValueRange → Trail) : Trail :=
  match evaluate index with
  | .ok i => ⟨index :: (rest i).positions, (rest i).goal⟩
  | .error _ => ⟨[index], .nothing⟩

mutual

/-- It goes through equations with a constant and through negations, and down
to the update that is read, or to the byte of the array. -/
def Expr.trail : Expr → ValueRange → Trail
  | .read root head index, range => .look index fun i => head.trail root index i range
  | .cmp .eq left right, range =>
    if range.isFixed then
      match left with
      | .constant ce =>
        if ce.width ≤ 64 then
          if range.m_min ≠ 0 then right.trail (fixed (BitVec.ofNat 64 ce.toNat))
          else if right.getWidth = 1 then
            right.trail (fixed (if ce.isZero then 1 else 0))
          else {}
        else {}
      | _ => {}
    else {}
  | .not expr, range =>
    if expr.getWidth = 1 && range.isFixed then
      expr.trail (fixed (if range.m_min = 0 then 1 else 0))
    else {}
  | .cmp .ne _ _, _ | .cmp .ugt _ _, _ | .cmp .uge _ _, _ | .cmp .sgt _ _, _
  | .cmp .sge _ _, _ => ⟨[], .invalid⟩
  | _, _ => {}

/-- The way through the updates of a read at `index`, whose range is `i`. -/
def UpdateNode.trail (root : Array) (index : Expr) (i range : ValueRange) :
    UpdateNode → Trail
  | .null => ⟨[], if i.isFixed then .byte root i.m_min.toNat range else .nothing⟩
  | .node next index' value => .look index' fun ui =>
    if !ui.mayEqual i then next.trail root index i range
    else if ui.mustEqual i || index = index' then value.trail range
    else {}

end

/-- The ranges of the positions are evaluated, and it ends at a byte that is
there, or at nothing. -/
structure Trail.Sound (t : Trail) : Prop where
  evaluable : t.positions.all Expr.evaluable = true
  inside : t.goal.Inside

namespace Trail

variable {index : Expr} {i : ValueRange} {rest : ValueRange → Trail}

theorem look_eq (hi : evaluate index = .ok i) :
    look index rest = ⟨index :: (rest i).positions, (rest i).goal⟩ := by
  rw [look, hi]

theorem Sound.look (h : (look index rest).Sound) :
    index.evaluable = true ∧ ∀ i, evaluate index = .ok i → (rest i).Sound := by
  cases hi : evaluate index with
  | error _ =>
    rw [Trail.look, hi] at h
    exact ⟨by simpa using h.evaluable, nofun⟩
  | ok i =>
    rw [look_eq hi] at h
    obtain ⟨hindex, hrest⟩ : index.evaluable = true ∧
        (rest i).positions.all Expr.evaluable = true := Bool.and_eq_true_iff.mp h.evaluable
    refine ⟨hindex, fun i' hi' => ?_⟩
    cases hi'
    exact ⟨hrest, h.inside⟩

/-- It is enough to look at what follows the position. -/
theorem look_admits {σ : Valuation}
    (he : (look index rest).positions.all Expr.enclosed = true)
    (h : ∀ i, evaluate index = .ok i → index.enclosed = true →
      (rest i).positions.all Expr.enclosed = true → (rest i).goal.Admits σ) :
    (look index rest).goal.Admits σ := by
  cases hi : evaluate index with
  | error _ =>
    rw [look, hi]
    trivial
  | ok i =>
    rw [look_eq hi] at he ⊢
    obtain ⟨hindex, hrest⟩ := Bool.and_eq_true_iff.mp he
    exact h i hi hindex hrest

end Trail

namespace CexData

/-- A range that is fixed to a boolean. -/
theorem covers_bool {x : BitVec 1} (h : range.Covers x) (hfix : range.isFixed = true) :
    x = if range.m_min = 0 then 0 else 1 := by
  have heq := h.eq_of_fixed hfix
  split
  · next h0 =>
    rw [h0] at heq
    exact BitVec.eq_of_toNat_eq heq
  · next h0 =>
    have hne : range.m_min.toNat ≠ 0 := fun h => h0 (BitVec.eq_of_toNat_eq h)
    have hlt := x.isLt
    exact BitVec.eq_of_toNat_eq (show x.toNat = 1 by omega)

/-! What the truth value of an equation or of a negation says about the operand
that it leaves. -/

theorem covers_of_eq {y z : BitVec w} (hw : w ≤ 64)
    (h : range.Covers (BitVec.ofBool (CmpKind.eq.apply y z)))
    (hfix : range.isFixed = true) (htrue : range.m_min ≠ 0) :
    (fixed (BitVec.ofNat 64 y.toNat)).Covers z := by
  have hpow := Nat.pow_le_pow_right (n := 2) (by decide) hw
  have hbool := covers_bool h hfix
  rw [if_neg htrue] at hbool
  have heq : y = z := by
    by_contra hne
    simp [CmpKind.apply, beq_eq_false_iff_ne.mpr hne] at hbool
  refine covers_fixed ?_
  rw [BitVec.toNat_ofNat, Nat.mod_eq_of_lt (y.isLt.trans_le hpow), heq]

theorem covers_of_ne {y z : BitVec 1}
    (h : range.Covers (BitVec.ofBool (CmpKind.eq.apply y z)))
    (hfix : range.isFixed = true) (hfalse : range.m_min = 0) :
    (fixed (if APInt.isZero ⟨1, y⟩ then 1 else 0)).Covers z := by
  have hbool := covers_bool h hfix
  rw [if_pos hfalse] at hbool
  have bits : ∀ y z : BitVec 1, BitVec.ofBool (CmpKind.eq.apply y z) = 0 →
      (if APInt.isZero ⟨1, y⟩ then (1 : BitVec 64) else 0).toNat = z.toNat := by
    decide
  exact covers_fixed (bits y z hbool)

theorem covers_of_not {y : BitVec 1} (h : range.Covers (~~~y))
    (hfix : range.isFixed = true) :
    (fixed (if range.m_min = 0 then 1 else 0)).Covers y := by
  have hbool := covers_bool h hfix
  have bits : ∀ y : BitVec 1, (~~~y = 0 → (1 : BitVec 64).toNat = y.toNat) ∧
      (~~~y = 1 → (0 : BitVec 64).toNat = y.toNat) := by decide
  split_ifs at hbool ⊢
  · exact covers_fixed ((bits y).1 hbool)
  · exact covers_fixed ((bits y).2 hbool)

/-- The test by which an update is taken to be the one that is read. -/
theorem same_position {index index' : Expr} {j j' : BitVec 32} {i ui : ValueRange}
    (hj : Denotes σ index j) (hj' : Denotes σ index' j') (hi : i.Covers j)
    (hui : ui.Covers j') (hsame : (ui.mustEqual i || index = index') = true) : j = j' := by
  rcases Bool.or_eq_true_iff.mp hsame with hmust | hsyn
  · exact (hui.eq_of_mustEqual hi hmust).symm
  · rw [← of_decide_eq_true hsyn] at hj'
    exact hj.unique hj'

mutual

/-- The byte that is reached is in its range under every assignment under which
the value of the expression is. -/
theorem trail_admits : ∀ {e : Expr} {w : Nat} {x : BitVec w} {range : ValueRange},
    (e.trail range).positions.all Expr.enclosed = true → Denotes σ e x → range.Covers x →
    (e.trail range).goal.Admits σ
  | .read root head index, w, x, range, he, hx, hr => by
    obtain rfl := (typed_read.mp hx.typed).1
    obtain ⟨-, us, j, hus, hj, hread⟩ := denotes_read.mp hx
    exact Trail.look_admits he fun i hi hindex hrest =>
      trail_admits_updates hrest hus hj hread (evaluate_covers hindex hj hi) hr
  | .cmp k l r, w, x, range, he, hx, hr => by
    obtain rfl := (typed_cmp.mp hx.typed).1
    obtain ⟨u, y, z, hy, hz, hxyz⟩ := denotes_cmp.mp hx
    cases k
    case eq =>
      revert he
      unfold Expr.trail
      split
      · next hfix =>
        split
        · next ce =>
          obtain ⟨_, rfl⟩ := denotes_constant.mp hy
          split
          · next hu =>
            split
            · next htrue =>
              exact fun he => trail_admits he hz (covers_of_eq hu (hxyz ▸ hr) hfix htrue)
            split
            · next htrue hbit =>
              obtain rfl : u = 1 := hz.typed.getWidth_eq.symm.trans hbit
              exact fun he => trail_admits he hz
                (covers_of_ne (hxyz ▸ hr) hfix (not_not.mp htrue))
            · exact fun _ => trivial
          · exact fun _ => trivial
        · exact fun _ => trivial
      · exact fun _ => trivial
    all_goals trivial
  | .not e, w, x, range, he, hx, hr => by
    obtain ⟨y, hy, rfl⟩ := denotes_not.mp hx
    revert he
    unfold Expr.trail
    split
    · next hcond =>
      obtain ⟨hw, hfix⟩ := Bool.and_eq_true_iff.mp hcond
      obtain rfl : w = 1 := hy.typed.getWidth_eq.symm.trans (of_decide_eq_true hw)
      exact fun he => trail_admits he hy (covers_of_not hr hfix)
    · exact fun _ => trivial
  | .constant _, _, _, _, _, _, _ | .notOptimized _, _, _, _, _, _, _
  | .select .., _, _, _, _, _, _ | .concat .., _, _, _, _, _, _
  | .extract .., _, _, _, _, _, _ | .zext .., _, _, _, _, _, _
  | .sext .., _, _, _, _, _, _ | .binary .., _, _, _, _, _, _ => trivial

theorem trail_admits_updates {root : Array} {index : Expr} {j : BitVec 32} {i : ValueRange} :
    ∀ {head : UpdateNode} {us : List (BitVec 32 × BitVec 8)} {x : BitVec 8}
    {range : ValueRange}, (head.trail root index i range).positions.all Expr.enclosed = true →
    head.Denotes σ us → Denotes σ index j → readUpdates σ root j us = some x →
    i.Covers j → range.Covers x → (head.trail root index i range).goal.Admits σ
  | .null, us, x, range, _, hus, _, hread, hi, hr => by
    obtain rfl := denotes_null.mp hus
    unfold UpdateNode.trail
    split
    · next hfix =>
      intro hsym _
      rw [readUpdates, Array.initialValue, if_neg (by simp [hsym]), Option.some.injEq,
        hi.eq_of_fixed hfix] at hread
      rwa [hread]
    · trivial
  | .node next index' value, us, x, range, he, hus, hj, hread, hi, hr => by
    obtain ⟨us', j', b, hus', hj', hb, rfl⟩ := denotes_node.mp hus
    refine Trail.look_admits he fun ui hui hindex => ?_
    have hui := evaluate_covers hindex hj' hui
    rw [readUpdates] at hread
    split
    · next hmay =>
      have hne : j ≠ j' := by
        rintro rfl
        simp [hui.mayEqual hi] at hmay
      rw [if_neg hne] at hread
      exact fun he => trail_admits_updates he hus' hj hread hi hr
    split
    · next hsame =>
      rw [if_pos (same_position hj hj' hi hui hsame)] at hread
      cases hread
      exact fun he => trail_admits he hb hr
    · exact fun _ => trivial

end

mutual

/-- The exact contents still hold of an assignment that gives the byte that is
reached a value in its range. -/
theorem propagateExactValues_exact {c : Prop} : ∀ {e : Expr} {range : ValueRange}
    {cd : CexData}, (e.trail range).goal.Admits σ →
    (c → (∃ w, Typed e w) ∧ (e.trail range).Sound) → Exact σ cd →
    Meets c (propagateExactValues e range) cd fun _ s => Exact σ s
  | .read root head index, range, cd, hσ, hp, h => by
    have ht (hc : c) : head.wellTyped = true ∧ Typed index 32 := by
      obtain ⟨⟨_, ht⟩, _⟩ := hp hc
      obtain ⟨_, hhead, hindex, _⟩ := typed_read.mp ht
      exact ⟨hhead, hindex⟩
    have hlook (hc : c) := (hp hc).2.look
    refine getObjectData_bind (.except_bind
      (fun hc => evaluate_total (ht hc).2 (hlook hc).1) fun i hi _ => ?_)
    rw [Expr.trail, Trail.look_eq hi] at hσ
    exact propagateExactUpdates_exact hσ (fun hc => ⟨(ht hc).1, (hlook hc).2 i hi⟩) h.touch
  | .cmp k l r, range, cd, hσ, hp, h => by
    cases k
    case eq =>
      have ht (hc : c) : ∃ w, Typed r w := by
        obtain ⟨⟨_, ht⟩, _⟩ := hp hc
        obtain ⟨_, u, _, hr⟩ := typed_cmp.mp ht
        exact ⟨u, hr⟩
      replace hp (hc : c) := (hp hc).2
      have next (v : BitVec 64) (hσ : (r.trail (fixed v)).goal.Admits σ)
          (hp : c → (r.trail (fixed v)).Sound) :=
        propagateExactValues_exact hσ (fun hc => ⟨ht hc, hp hc⟩) h
      revert hσ hp
      unfold Expr.trail propagateExactValues
      cases l with
      | constant ce =>
        dsimp only
        split
        · split
          · split
            · exact next _
            split
            · exact next _
            · exact fun _ _ => .pure h
          · exact fun _ _ => .pure h
        · exact fun _ _ => .pure h
      | _ =>
        split
        · exact fun _ _ => .pure h
        · exact fun _ _ => .pure h
    case ult | ule | slt | sle => exact .pure h
    all_goals exact .throw fun hc => (hp hc).2.inside
  | .not e, range, cd, hσ, hp, h => by
    have ht (hc : c) : ∃ w, Typed e w := by
      obtain ⟨⟨w, ht⟩, _⟩ := hp hc
      exact ⟨w, typed_not.mp ht⟩
    replace hp (hc : c) := (hp hc).2
    revert hσ hp
    unfold Expr.trail propagateExactValues
    split
    · exact fun hσ hp => propagateExactValues_exact hσ (fun hc => ⟨ht hc, hp hc⟩) h
    · exact fun _ _ => .pure h
  | .constant _, _, _, _, _, h | .notOptimized _, _, _, _, _, h
  | .select .., _, _, _, _, h | .concat .., _, _, _, _, h
  | .extract .., _, _, _, _, h | .zext .., _, _, _, _, h
  | .sext .., _, _, _, _, h | .binary .., _, _, _, _, h => .pure h

theorem propagateExactUpdates_exact {c : Prop} {root : Array} {index : Expr}
    {i range : ValueRange} : ∀ {head : UpdateNode} {cd : CexData},
    (head.trail root index i range).goal.Admits σ →
    (c → head.wellTyped = true ∧ (head.trail root index i range).Sound) → Exact σ cd →
    Meets c (propagateExactUpdates root index i range head) cd fun _ s => Exact σ s
  | .null, cd, hσ, hp, h => by
    refine exactByte_exact (fun hfix => ?_) (fun hc hfix => ?_) h
    · rwa [UpdateNode.trail, if_pos hfix] at hσ
    · have hin := (hp hc).2.inside
      rwa [UpdateNode.trail, if_pos hfix] at hin
  | .node next index' value, cd, hσ, hp, h => by
    have ht (hc : c) := wellTyped_node.mp (hp hc).1
    have hlook (hc : c) := (hp hc).2.look
    refine .except_bind (fun hc => evaluate_total (ht hc).2.1 (hlook hc).1) fun ui hui _ => ?_
    rw [UpdateNode.trail, Trail.look_eq hui] at hσ
    replace hlook (hc : c) := (hlook hc).2 ui hui
    revert hσ hlook
    dsimp only
    split
    · exact fun hσ hp => propagateExactUpdates_exact hσ (fun hc => ⟨(ht hc).1, hp hc⟩) h
    split
    · exact fun hσ hp => propagateExactValues_exact hσ (fun hc => ⟨⟨8, (ht hc).2.2⟩, hp hc⟩) h
    · exact fun _ _ => .pure h

end

end CexData

end VitalSE
