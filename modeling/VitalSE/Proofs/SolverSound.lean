import VitalSE.Core.AddressSpace
import VitalSE.Proofs.ConstraintsSound

/-!
# What the executor may conclude from an answer

The executor asks its solver through two layers that answer constant queries
themselves and simplify the rest. Over a correct solver both keep to the
contract: an answer about the simplified expression is one about the
expression, since under every model of the constraints the two have one value.

A path condition is what a state has as its constraints, and the executor only
asks about expressions that have a value under every model of it.
-/

namespace VitalSE

/-- The constraints of a state, for models in `A`. -/
structure PathCondition (A : Valuation → Prop) (cs : List Expr) : Prop where
  boolean : Boolean cs
  decided : Decided A cs
  satisfiable : Satisfiable A cs

/-- `e` has a value of width `w` under every model of the constraints. -/
def Valued (A : Valuation → Prop) (cs : List Expr) (e : Expr) (w : Nat) : Prop :=
  ∀ σ, A σ → AllHold σ cs → ∃ x : BitVec w, Denotes σ e x

section

variable {A : Valuation → Prop} {cs : List Expr} {e e' : Expr} {w : Nat} {σ : Valuation}

theorem Valued.typed (h : Valued A cs e w) (hcs : PathCondition A cs) : Typed e w := by
  obtain ⟨σ, hA, hσ⟩ := hcs.satisfiable
  obtain ⟨x, hx⟩ := h σ hA hσ
  exact hx.typed

theorem PathCondition.single (hd : ∀ σ, ∃ x : BitVec 1, Denotes σ e x)
    (hs : ∃ σ, A σ ∧ Holds σ e) : PathCondition A [e] where
  boolean e' he := by
    obtain ⟨x, hx⟩ := hd .zero
    exact List.mem_singleton.mp he ▸ hx.typed
  decided σ _ := by
    obtain ⟨x, hx⟩ := hd σ
    rcases holds_or_fails hx with h | h
    · exact .inl (allHold_singleton.mpr h)
    · exact .inr ⟨_, List.mem_singleton_self _, h⟩
  satisfiable := by
    obtain ⟨σ, hA, h⟩ := hs
    exact ⟨σ, hA, allHold_singleton.mpr h⟩

/-- What is said of the models may use that the expression has a value. -/
theorem Valued.forall_congr {P Q : Valuation → Prop} (h : Valued A cs e w)
    (hPQ : ∀ {σ} {x : BitVec w}, A σ → AllHold σ cs → Denotes σ e x → (P σ ↔ Q σ)) :
    (∀ σ, A σ → AllHold σ cs → P σ) ↔ ∀ σ, A σ → AllHold σ cs → Q σ := by
  refine forall_congr' fun σ => forall_congr' fun hA => forall_congr' fun hσ => ?_
  obtain ⟨x, hx⟩ := h σ hA hσ
  exact hPQ hA hσ hx

theorem Valued.simplifies (h : Valued A cs e w)
    (hs : ∀ σ, A σ → AllHold σ cs → Simplifies σ e e') : Valued A cs e' w := by
  intro σ hA hσ
  obtain ⟨x, hx⟩ := h σ hA hσ
  exact ⟨x, (hs σ hA hσ).value hx⟩

theorem Valued.proper (h : Valued A cs e w) (hcs : PathCondition A cs) :
    Query.Proper A ⟨cs, e⟩ where
  boolean := hcs.boolean
  decided := hcs.decided
  typed := by
    have := h.typed hcs
    exact this.getWidth_eq ▸ this
  defined σ hA hσ := by
    obtain ⟨x, hx⟩ := h σ hA hσ
    exact Option.isSome_iff_exists.mpr ⟨_, hx.eval_eq⟩

/-- A value of an expression that has one stays under simplification, so the
two are true together and false together. -/
theorem denotes_iff_of_simplifies {x y : BitVec w} (hx : Denotes σ e x)
    (hs : Simplifies σ e e') : Denotes σ e' y ↔ Denotes σ e y := by
  constructor
  · intro hy
    exact (hs.value hx).unique hy ▸ hx
  · exact hs.value

section

variable (h : Valued A cs e 1) (hs : ∀ σ, A σ → AllHold σ cs → Simplifies σ e e')

include h hs

theorem entailed_simplifies : Query.Entailed A ⟨cs, e'⟩ ↔ Query.Entailed A ⟨cs, e⟩ :=
  h.forall_congr fun hA hσ hx => denotes_iff_of_simplifies hx (hs _ hA hσ)

theorem refuted_simplifies : Query.Refuted A ⟨cs, e'⟩ ↔ Query.Refuted A ⟨cs, e⟩ :=
  h.forall_congr fun hA hσ hx => denotes_iff_of_simplifies hx (hs _ hA hσ)

theorem validity_simplifies (v : Validity) : v.Of A ⟨cs, e'⟩ ↔ v.Of A ⟨cs, e⟩ := by
  cases v <;>
    simp only [Validity.Of, entailed_simplifies h hs, refuted_simplifies h hs]

end

theorem denotes_createIsZero {x : BitVec 1} (opt : Bool) (hx : Denotes σ e x) :
    Denotes σ (e.createIsZero opt) (~~~x) :=
  Expr.createIsZero_simplifies.value (denotes_isZero hx)

/-- The negation of an expression is valued with it. -/
theorem Valued.isZero (opt : Bool) (h : Valued A cs e 1) : Valued A cs (e.createIsZero opt) 1 := by
  intro σ hA hσ
  obtain ⟨x, hx⟩ := h σ hA hσ
  exact ⟨_, denotes_createIsZero opt hx⟩

theorem denotes_isZero_iff {x y : BitVec 1} (opt : Bool) (hx : Denotes σ e x) :
    Denotes σ (e.createIsZero opt) (~~~y) ↔ Denotes σ e y := by
  have hz := denotes_createIsZero opt hx
  constructor
  · intro h
    exact BitVec.not_inj.mp (hz.unique h) ▸ hx
  · intro h
    exact hx.unique h ▸ hz

theorem holds_isZero {x : BitVec 1} (opt : Bool) (hx : Denotes σ e x) :
    Holds σ (e.createIsZero opt) ↔ Fails σ e := denotes_isZero_iff (y := 0#1) opt hx

theorem entailed_isZero (opt : Bool) (h : Valued A cs e 1) :
    Query.Entailed A ⟨cs, e.createIsZero opt⟩ ↔ Query.Refuted A ⟨cs, e⟩ :=
  h.forall_congr fun _ _ hx => holds_isZero opt hx

theorem refuted_isZero (opt : Bool) (h : Valued A cs e 1) :
    Query.Refuted A ⟨cs, e.createIsZero opt⟩ ↔ Query.Entailed A ⟨cs, e⟩ :=
  h.forall_congr fun _ _ hx => denotes_isZero_iff (y := 1#1) opt hx

/-- A constant is true or it is refuted. -/
theorem constant_isTrue (A : Valuation → Prop) (cs : List Expr) {v : APInt}
    (h : Typed (.constant v) 1) :
    if ConstantExpr.isTrue v then Query.Entailed A ⟨cs, .constant v⟩
    else Query.Refuted A ⟨cs, .constant v⟩ := by
  split
  · next hv =>
    intro σ _ _
    exact denotes_constant.mpr ⟨Nat.one_pos, ConstantExpr.isTrue_iff.mp hv⟩
  · next hv =>
    intro σ _ _
    obtain ⟨x, rfl⟩ := APInt.exists_bits (typed_constant.mp h).2
    have hx : Denotes σ (.constant ⟨1, x⟩) x := denotes_constant.mpr ⟨Nat.one_pos, rfl⟩
    rcases holds_or_fails hx with h' | h'
    · exact absurd (ConstantExpr.isTrue_iff.mpr (denotes_constant.mp h').2) hv
    · exact h'

end

/-- A path condition to show the results at: `arr[1] < arr[0]`. -/
def Expr.descending : Expr :=
  .cmp .ult (.read Array.four .null (.const 1 32))
    (.read Array.four .null (.const 0 32))

theorem denotes_descending (σ : Valuation) : Denotes σ .descending
      (BitVec.ofBool ((σ Array.four 1).ult (σ Array.four 0))) :=
  denotes_cmp.mpr ⟨8, _, _, denotes_read_four σ (by decide),
    denotes_read_four σ (by decide), rfl⟩

theorem pathCondition_descending : PathCondition (fun _ => True) [.descending] :=
  .single (fun σ => ⟨_, denotes_descending σ⟩)
    ⟨fun _ i => if i = 0 then 3 else 0, trivial, denotes_descending _⟩

theorem denotes_eq_four (σ : Valuation) (n : Nat) :
    Denotes σ (.cmp .eq (.const n 8) (.read Array.four .null (.const 0 32)))
      (BitVec.ofBool (CmpKind.eq.apply (BitVec.ofNat 8 n) (σ Array.four 0))) :=
  denotes_cmp.mpr ⟨8, _, _, denotes_const.mpr ⟨by decide, rfl⟩,
    denotes_read_four σ (by decide), rfl⟩

/-! ## The layers before the solver -/

section

variable {S : Type} {A : Valuation → Prop} {mayFail : Prop} {Inv : S → Prop}
  {impl : SolverImpl S} {t : TimingSolver S} {cs : List Expr} {e : Expr} {w : Nat}
  {s : S}

namespace Solver

variable (h : impl.Correct A mayFail Inv) (hcs : PathCondition A cs)

include h hcs

theorem evaluate_runs (he : Valued A cs e 1) (hs : Inv s) :
    Runs (evaluate impl ⟨cs, e⟩) s fun r s' =>
      Inv s' ∧ Answer mayFail (Validity.Of A ⟨cs, e⟩) r := by
  have ht := he.typed hcs
  unfold evaluate
  rw [if_neg (by simp [ht.getWidth_eq])]
  split
  · next v hv =>
    obtain rfl : e = .constant v := hv
    have := constant_isTrue A cs ht
    refine .pure ⟨hs, ?_⟩
    split at this <;> next hv => simpa [hv, Answer, Validity.Of] using this
  · exact h.validity (he.proper hcs) ht.getWidth_eq hcs.satisfiable hs

theorem mustBeTrue_runs (he : Valued A cs e 1) (hs : Inv s) :
    Runs (mustBeTrue impl ⟨cs, e⟩) s fun r s' =>
      Inv s' ∧ Answer mayFail (fun b => b = true ↔ Query.Entailed A ⟨cs, e⟩) r := by
  have ht := he.typed hcs
  unfold mustBeTrue
  rw [if_neg (by simp [ht.getWidth_eq])]
  split
  · next v hv =>
    obtain rfl : e = .constant v := hv
    refine .pure ⟨hs, ?_⟩
    have := constant_isTrue A cs ht
    split at this
    · next hv => simpa [hv, Answer] using this
    · next hv =>
      simp only [hv, Answer, Bool.false_eq_true, false_iff]
      intro hent
      obtain ⟨σ, hA, hσ⟩ := hcs.satisfiable
      exact Holds.not_fails (hent σ hA hσ) (this σ hA hσ)
  · exact h.truth (he.proper hcs) ht.getWidth_eq hcs.satisfiable hs

theorem getValue_runs (he : Valued A cs e w) (hs : Inv s) :
    Runs (getValue impl ⟨cs, e⟩) s fun r s' =>
      Inv s' ∧ Answer mayFail (fun v => ∃ σ, A σ ∧ AllHold σ cs ∧ e.eval σ = some v) r := by
  unfold getValue
  split
  · next v hv =>
    obtain rfl : e = .constant v := hv
    obtain ⟨σ, hA, hσ⟩ := hcs.satisfiable
    exact .pure ⟨hs, σ, hA, hσ, rfl⟩
  · refine .bind (h.value (he.proper hcs) hcs.satisfiable hs) ?_
    rintro (_ | e') s' ⟨hs', hr⟩
    · exact .pure ⟨hs', hr⟩
    · obtain ⟨v, σ, rfl, hA, hσ, hv⟩ := hr
      exact .pure ⟨hs', σ, hA, hσ, hv⟩

end Solver

namespace TimingSolver

variable (h : t.solver.Correct A mayFail Inv) (hcs : PathCondition A cs)

theorem simplify_runs (hcs : PathCondition A cs) (e : Expr) :
    Runs (t.simplify cs e) s fun e' s' => s' = s ∧ ∀ σ, AllHold σ cs → Simplifies σ e e' := by
  unfold simplify
  split
  · obtain ⟨σ0, -, hσ0⟩ := hcs.satisfiable
    obtain ⟨e', he', hs⟩ := ConstraintManager.simplifyExpr_simplifies
      t.constArrayOpt hcs.boolean hσ0.not_someFails (le_refl e.weight)
    exact .liftExcept he' ⟨rfl, fun σ hσ => hs σ hσ.not_someFails⟩
  · exact .pure ⟨rfl, fun _ _ => .refl⟩

include h hcs

section

variable (he : Valued A cs e 1) (hs : Inv s)

include he hs

theorem evaluate_runs : Runs (t.evaluate cs e) s fun r s' =>
      Inv s' ∧ Answer mayFail (Validity.Of A ⟨cs, e⟩) r := by
  unfold evaluate
  split
  · next v =>
    have := constant_isTrue A cs (he.typed hcs)
    refine .pure ⟨hs, ?_⟩
    split at this <;> next hv => simpa [hv, Answer, Validity.Of] using this
  · refine .bind (simplify_runs hcs e) ?_
    rintro e' s' ⟨hs', hsimp⟩
    have he' := he.simplifies fun σ _ => hsimp σ
    exact answer_imp (Solver.evaluate_runs h hcs he' (hs' ▸ hs)) fun v =>
      (validity_simplifies he (fun σ _ => hsimp σ) v).mp

theorem mustBeTrue_runs : Runs (t.mustBeTrue cs e) s fun r s' =>
      Inv s' ∧ Answer mayFail (fun b => b = true ↔ Query.Entailed A ⟨cs, e⟩) r := by
  unfold mustBeTrue
  split
  · next v =>
    have := Solver.mustBeTrue_runs h hcs he hs
    rw [Solver.mustBeTrue, if_neg (by simp [(he.typed hcs).getWidth_eq])] at this
    exact this
  · refine .bind (simplify_runs hcs e) ?_
    rintro e' s' ⟨hs', hsimp⟩
    have he' := he.simplifies fun σ _ => hsimp σ
    have hiff := entailed_simplifies he fun σ _ => hsimp σ
    exact answer_imp (Solver.mustBeTrue_runs h hcs he' (hs' ▸ hs)) fun _ hr => hr.trans hiff

theorem mustBeFalse_runs : Runs (t.mustBeFalse cs e) s fun r s' => Inv s' ∧
      Answer mayFail (fun b => b = true ↔ Query.Refuted A ⟨cs, e⟩) r :=
  answer_imp (mustBeTrue_runs h hcs (he.isZero t.constArrayOpt) hs) fun _ hr =>
    hr.trans (entailed_isZero t.constArrayOpt he)

theorem mayBeTrue_runs : Runs (t.mayBeTrue cs e) s fun r s' => Inv s' ∧
      Answer mayFail (fun b => b = true ↔ ¬Query.Refuted A ⟨cs, e⟩) r := by
  apply Runs.bind (mustBeFalse_runs h hcs he hs)
  intro r s' ⟨hs', hr⟩
  cases r with
  | none => exact .pure ⟨hs', hr⟩
  | some b =>
    have hb : b = true ↔ Query.Refuted A ⟨cs, e⟩ := hr
    refine .pure ⟨hs', ?_⟩
    rw [Answer, ← hb]
    cases b <;> decide

end

theorem getValue_runs (he : Valued A cs e w) (hs : Inv s) :
    Runs (t.getValue cs e) s fun r s' => Inv s' ∧ Answer mayFail (fun v => ∃ σ, A σ ∧ AllHold σ cs ∧
        e.eval σ = some v) r := by
  unfold getValue
  split
  · obtain ⟨σ, hA, hσ⟩ := hcs.satisfiable
    exact .pure ⟨hs, σ, hA, hσ, rfl⟩
  · refine .bind (simplify_runs hcs e) ?_
    rintro e' s' ⟨hs', hsimp⟩
    have he' := he.simplifies fun σ _ => hsimp σ
    refine answer_imp (Solver.getValue_runs h hcs he' (hs' ▸ hs)) ?_
    rintro v ⟨σ, hA, hσ, hv⟩
    obtain ⟨x, hx⟩ := he σ hA hσ
    have := ((hsimp σ hσ).value hx).eval_eq.symm.trans hv
    exact ⟨σ, hA, hσ, hx.eval_eq.trans this⟩

end TimingSolver

end

end VitalSE
