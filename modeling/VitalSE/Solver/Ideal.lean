import VitalSE.Solver.Solver

/-!
# The ideal solver

The solver that decides every query by its models. It is not a program; it
shows that the contract of a correct solver can be met, for any set of
valuations.
-/

namespace VitalSE

open Classical in
/-- Answer by the models of the query, and pick one where a value is asked. -/
noncomputable def SolverImpl.ideal (A : Valuation → Prop) : SolverImpl Unit where
  computeValidity q := pure (some
    (if q.Entailed A then .true else if q.Refuted A then .false else .unknown))
  computeTruth q := pure (some (decide (q.Entailed A)))
  computeValue q := pure (some
    (if h : ∃ v σ, A σ ∧ AllHold σ q.constraints ∧ q.expr.eval σ = some v then
      .constant h.choose
    else q.expr))
  computeInitialValues q objects := pure (some
    (if h : ∃ σ, A σ ∧ AllHold σ q.constraints ∧ Fails σ q.expr then
      some (objects.map h.choose.bytes)
    else none))

theorem SolverImpl.ideal_correct (A : Valuation → Prop) :
    (ideal A).Correct A False fun _ => True where
  validity _ _ _ _ := by
    refine .pure ⟨trivial, ?_⟩
    simp only [Answer]
    split
    · next h => exact h
    · next h =>
      split
      · next h' => exact h'
      · next h' => exact ⟨h, h'⟩
  truth _ _ _ _ := .pure ⟨trivial, by simp [Answer]⟩
  value {q s} hq hsat _ := by
    refine .pure ⟨trivial, ?_⟩
    obtain ⟨σ, hA, hσ⟩ := hsat
    obtain ⟨v, hv⟩ := Option.isSome_iff_exists.mp (hq.defined σ hA hσ)
    have h : ∃ v σ, A σ ∧ AllHold σ q.constraints ∧ q.expr.eval σ = some v :=
      ⟨v, σ, hA, hσ, hv⟩
    obtain ⟨σ', h'⟩ := h.choose_spec
    exact ⟨h.choose, σ', dif_pos h, h'⟩
  initialValues {q s objects} hq hw _ := by
    refine .pure ⟨trivial, ?_⟩
    simp only [Answer]
    split
    · next heq =>
      split at heq
      · simp at heq
      next hno =>
      intro σ hA hσ
      obtain ⟨x, hx⟩ := hq.denotes hw hA hσ
      exact (holds_or_fails hx).resolve_right fun hf => hno ⟨σ, hA, hσ, hf⟩
    · next values heq =>
      split at heq
      · next h =>
        obtain ⟨hA, hσ, hf⟩ := h.choose_spec
        exact ⟨h.choose, hA, hσ, hf, by simpa using heq.symm⟩
      · simp at heq

end VitalSE
