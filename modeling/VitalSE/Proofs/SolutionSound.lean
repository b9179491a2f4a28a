import VitalSE.Proofs.ForkSound
import VitalSE.Proofs.IndependentSound

/-!
# Test cases satisfy the path condition

A preference is added to a copy of the path condition when the solver finds that it
does not contradict it. Each one rewrites the copy; as with a fork, the models of
the copy are those of the path condition under which all preferences so far are
true. There is always one left, so that the solver has bytes for the symbolic
objects unless it fails.
-/

namespace VitalSE

section

variable {S : Type} {A : Valuation → Prop} {mayFail : Prop} {Inv : S → Prop}
  {ex : Executor S}

theorem TimingSolver.getInitialValues_runs {t : TimingSolver S} {cs : List Expr} {s : S}
    (h : t.solver.Correct A mayFail Inv) (hcs : PathCondition A cs) (hs : Inv s)
    (objects : List Array) : Runs (t.getInitialValues cs objects) s fun r s' => Inv s' ∧
      Answer mayFail (fun values => ∃ σ, A σ ∧ AllHold σ cs ∧ values = objects.map σ.bytes) r := by
  obtain ⟨σ0, hA0, hσ0⟩ := hcs.satisfiable
  have hfalse : ∀ σ, Fails σ (.const 0 1) := fun _ => denotes_const.mpr ⟨Nat.one_pos, rfl⟩
  have hvalued : Valued A cs (.const 0 1) 1 := fun σ _ _ => ⟨_, hfalse σ⟩
  unfold getInitialValues
  split
  · next hempty =>
    rw [List.isEmpty_iff.mp hempty]
    exact .pure ⟨hs, σ0, hA0, hσ0, rfl⟩
  · refine .bind (h.initialValues (hvalued.proper hcs) rfl hs) fun r s' ⟨hs', hr⟩ => ?_
    cases r with
    | none => exact .pure ⟨hs', hr⟩
    | some solution =>
      cases solution with
      | none => exact absurd (hr σ0 hA0 hσ0) fun hholds => hholds.not_fails (hfalse σ0)
      | some values =>
        obtain ⟨σ, hA, hσ, -, hvalues⟩ := hr
        exact .pure ⟨hs', σ, hA, hσ, hvalues⟩

namespace Executor

theorem addPreferences_runs (h : ex.solver.solver.Correct A mayFail Inv) :
    ∀ {prefs cs : List Expr} {s : S}, PathCondition A cs →
    (∀ p ∈ prefs, Valued A cs p 1) → Inv s →
      Runs (ex.addPreferences prefs cs) s fun r s' => Inv s' ∧ r.2.Sublist prefs ∧
        Narrows A cs (fun σ => AllHold σ r.2) r.1
  | [], cs, s, hcs, _, hs =>
    .pure ⟨hs, .refl _, .refl hcs fun _ _ _ => by simp [AllHold]⟩
  | p :: rest, cs, s, hcs, hprefs, hs => by
    have hp := hprefs p List.mem_cons_self
    have hrest : ∀ q ∈ rest, Valued A cs q 1 := fun q hq =>
      hprefs q (List.mem_cons_of_mem p hq)
    refine .bind (TimingSolver.mustBeFalse_runs h hcs hp hs) ?_
    rintro r s1 ⟨hs1, hr⟩
    cases r with
    | none =>
      exact .pure ⟨hs1, List.nil_sublist _, .refl hcs fun _ _ _ => by simp [AllHold]⟩
    | some refuted =>
      cases refuted with
      | true =>
        refine (addPreferences_runs h hcs hrest hs1).imp ?_
        rintro r s' ⟨hs', hsub, hn⟩
        exact ⟨hs', hsub.cons p, hn⟩
      | false =>
        -- the preference is true under some model
        have hsat : ∃ σ, A σ ∧ AllHold σ cs ∧ Holds σ p := by
          by_contra hno
          refine Bool.false_ne_true (hr.mpr fun σ hA hσ => ?_)
          obtain ⟨x, hx⟩ := hp σ hA hσ
          exact (holds_or_fails hx).resolve_left fun hholds => hno ⟨σ, hA, hσ, hholds⟩
        obtain ⟨ds, hds, hn⟩ := ConstraintManager.addConstraintBounded_narrows
          ex.solver.constArrayOpt ex.rewriteEqualities hcs hp hsat
        have hrest' : ∀ q ∈ rest, Valued A ds q 1 := fun q hq σ hA hσ =>
          hrest q hq σ hA ((hn.models σ hA).mp hσ).1
        refine .except_bind hds (.bind (addPreferences_runs h hn.path hrest' hs1) ?_)
        rintro r s' ⟨hs', hsub, hn'⟩
        refine .pure ⟨hs', hsub.cons_cons p, hn'.path, fun σ hA => ?_⟩
        rw [hn'.models σ hA, hn.models σ hA, allHold_cons, and_assoc]

/-- The bytes of the symbolic objects. -/
def symbolicBytes (symbolics : List (String × Array)) : Bytes := fun a i =>
  (∃ o ∈ symbolics, o.2 = a) ∧ i < a.size

/-- What depends on the symbolic objects only is true under all valuations that give
them the bytes it is true with. -/
theorem holds_of_bytes {symbolics : List (String × Array)} {σ τ : Valuation} {e : Expr}
    (he : Determines (symbolicBytes symbolics) e) (hσ : Holds σ e)
    (hτ : ∀ o ∈ symbolics, τ.bytes o.2 = σ.bytes o.2) : Holds τ e := by
  refine (denotes_congr (he σ τ fun a i ⟨⟨o, ho, ha⟩, hi⟩ => ?_)).mp hσ
  subst ha
  have hmap := List.map_inj_left.mp (hτ o ho) i (List.mem_range.mpr hi)
  exact hmap.symm

/-- A test case is returned unless the solver fails. The path condition and the
preferences that were kept are true under every valuation with the bytes returned, as
far as they depend on the symbolic objects. -/
theorem getSymbolicSolution_satisfies (ex : Executor S) (A : Valuation → Prop)
    (mayFail : Prop) (Inv : S → Prop) (cs prefs : List Expr)
    (symbolics : List (String × Array)) (s : S)
    (h : ex.solver.solver.Correct A mayFail Inv) (hcs : PathCondition A cs)
    (hprefs : ∀ p ∈ prefs, Valued A cs p 1) (hs : Inv s) :
    Runs (ex.getSymbolicSolution cs prefs symbolics) s fun r s' => Inv s' ∧
      r.1.Sublist prefs ∧ Answer mayFail (fun res => ∃ σ, A σ ∧
        res = symbolics.map (fun o => (o.1, σ.bytes o.2)) ∧ AllHold σ cs ∧ AllHold σ r.1 ∧
          ∀ τ, (∀ o ∈ symbolics, τ.bytes o.2 = σ.bytes o.2) → ∀ e ∈ cs ++ r.1,
            Determines (symbolicBytes symbolics) e → Holds τ e) r.2 := by
  refine .bind (addPreferences_runs h hcs hprefs hs) fun r s1 ⟨hs1, hsub, hn⟩ => ?_
  have hmodel : ∀ σ, A σ → AllHold σ r.1 → AllHold σ cs ∧ AllHold σ r.2 ∧
      ∀ τ, (∀ o ∈ symbolics, τ.bytes o.2 = σ.bytes o.2) → ∀ e ∈ cs ++ r.2,
        Determines (symbolicBytes symbolics) e → Holds τ e := by
    intro σ hA hσ
    obtain ⟨hcsσ, hkept⟩ := (hn.models σ hA).mp hσ
    refine ⟨hcsσ, hkept, fun τ hτ e he hdet => holds_of_bytes hdet ?_ hτ⟩
    exact (List.mem_append.mp he).elim (hcsσ e) (hkept e)
  refine .bind (TimingSolver.getInitialValues_runs h hn.path hs1 _) fun values s' ⟨hs', hv⟩ => ?_
  cases values with
  | none => exact .pure ⟨hs', hsub, hv⟩
  | some values =>
    obtain ⟨σ, hA, hσ, rfl⟩ := hv
    refine .pure ⟨hs', hsub, σ, hA, ?_, hmodel σ hA hσ⟩
    show (symbolics.map Prod.fst).zip ((symbolics.map Prod.snd).map σ.bytes) = _
    rw [List.map_map, List.zip_map']
    rfl

end Executor

end

/-- Under `arr[1] < arr[0]`, prefer `arr[0] = 3`. -/
theorem Executor.getSymbolicSolution_descending :
    Runs (Executor.ideal.getSymbolicSolution [.descending]
      [.cmp .eq (.const 3 8) (.read Array.four .null (.const 0 32))] [("arr", Array.four)]) ()
      fun r _ => Answer False (fun res => ∃ σ : Valuation, res = [("arr", σ.bytes Array.four)] ∧
        AllHold σ [.descending] ∧ AllHold σ r.1) r.2 := by
  refine (getSymbolicSolution_satisfies .ideal (fun _ => True) False (fun _ => True) [.descending]
    [.cmp .eq (.const 3 8) (.read Array.four .null (.const 0 32))] [("arr", Array.four)] ()
    (SolverImpl.ideal_correct _) pathCondition_descending ?_ trivial).imp ?_
  · intro p hp σ _ _
    obtain rfl := List.mem_singleton.mp hp
    exact ⟨_, denotes_eq_four σ 3⟩
  · intro r _ ⟨_, _, hr⟩
    cases hres : r.2 with
    | none => rwa [hres] at hr
    | some res =>
      rw [hres] at hr
      obtain ⟨σ, _, hres', hcs, hkept, _⟩ := hr
      exact ⟨σ, hres', hcs, hkept⟩

end VitalSE
