import VitalSE.Proofs.SolverSound
import VitalSE.Solver.CexCachingSolver

/-!
# When the counterexample cache reports a failure

An answer comes from the cache or from the solver below, and a failure of the
solver below ends the query at once. `CexCacheExperimental` adds a second way to
fail: where the cache knows that the expression is false, `computeTruth` returns
`false`, which is the answer to the question and the report of a failure.
-/

namespace VitalSE.CexCachingSolver

/-- The cache has the answer and a failure is reported. -/
def Misreports {S : Type} (cs : CexCachingSolver S) (st : State S) : Request → Prop
  | .truth query => cs.negationRefuted st query = true
  | _ => False

variable {S α : Type} {cs : CexCachingSolver S} {st : State S} {query : Query}

/-- A failure is reported exactly when the solver below fails. -/
def Honest (m : SolverM (State S) (Option α)) : Prop :=
  ∀ st, st.failed = false → Yields m st fun r st' => r.isNone = st'.failed

theorem Honest.some (a : α) : Honest (S := S) (pure (some a)) :=
  fun _ h => .pure h.symm

theorem Honest.except_bind {e : Except Abort APInt} {f : APInt → SolverM (State S) (Option α)}
    (hf : ∀ c, Honest (f c)) : Honest (liftM e >>= f) :=
  fun st h => .except_bind fun c _ => hf c st h

theorem Honest.getAssignment_bind {f : Option (Option Assignment) → SolverM (State S) (Option α)}
    (hsome : ∀ a, Honest (f (.some a))) (hnone : f none = pure none) :
    Honest (cs.getAssignment query >>= f) := by
  intro st h
  refine .bind (P := fun r st' => r.isNone = st'.failed) ?_ fun r st' hr => ?_
  · unfold getAssignment
    refine .get_bind ?_
    dsimp only
    split
    · exact .pure h.symm
    · refine .except_bind fun (answer, inner) _ => ?_
      cases answer with
      | none => exact .set_bind (.pure rfl)
      | some values => exact .set_bind (.pure h.symm)
  · cases r with
    | none => exact hnone ▸ .pure hr
    | some a => exact hsome a st' hr.symm

theorem computeValidity_honest : Honest (cs.computeValidity query) := by
  refine .getAssignment_bind (fun a => .except_bind fun c => ?_) rfl
  split
  · exact .getAssignment_bind (fun _ => .some _) rfl
  · exact .getAssignment_bind (fun _ => .some _) rfl

theorem computeValue_honest : Honest (cs.computeValue query) :=
  .getAssignment_bind (fun _ => .except_bind fun _ => .some _) rfl

theorem computeInitialValues_honest {objects : List Array} :
    Honest (cs.computeInitialValues query objects) :=
  .getAssignment_bind (fun _ => .some _) rfl

theorem computeTruth_yields (h : st.failed = false) :
    Yields (cs.computeTruth query) st fun r st' =>
      if cs.negationRefuted st query then r = none ∧ st'.failed = false
      else r.isNone = st'.failed := by
  refine .get_bind ?_
  split
  · exact .pure ⟨rfl, h⟩
  · refine Honest.getAssignment_bind ?_ ?_ st h
    · exact fun _ => .some _
    · rfl

theorem Honest.fails {m : SolverM (State S) (Option α)} (hm : Honest m) (h : st.failed = false) :
    Yields (return (← m).isNone) st fun b st' => (b = true → st'.failed = true) ↔ ¬False :=
  .bind (hm st h) fun _ _ h => .pure (by simp [h])

/-- A request that ends reports a failure only if the solver below has failed in
it, in exactly those states in which the cache does not know that the expression
of a truth query is false, or `CexCacheExperimental` is off. -/
theorem reports_failure_iff (cs : CexCachingSolver S) (st st' : State S) (r : Request)
    (b : Bool) (h : cs.fails r st = .ok (b, st')) :
    (b = true → st'.failed = true) ↔ ¬cs.Misreports st r := by
  suffices Yields (cs.fails r) st fun b st' =>
      (b = true → st'.failed = true) ↔ ¬cs.Misreports st r from this _ _ h
  refine .modify_bind ?_
  cases r with
  | validity => exact computeValidity_honest.fails rfl
  | value => exact computeValue_honest.fails rfl
  | initialValues => exact computeInitialValues_honest.fails rfl
  | truth query =>
    refine .bind (computeTruth_yields rfl) fun r st' h => .pure ?_
    change if cs.negationRefuted st query then _ else _ at h
    show _ ↔ ¬cs.negationRefuted st query = true
    split at h
    · next hrefuted => simp [h, hrefuted]
    · next hrefuted => simp [h, hrefuted]

/-- A solver to which every query has no solution, below an empty cache. -/
def unsatisfiable : CexCachingSolver Unit where
  solver := {
    computeValidity := fun _ => return none
    computeTruth := fun _ => return none
    computeValue := fun _ => return none
    computeInitialValues := fun _ _ => return some none }
  constArrayOpt := true
  cexCacheTryAll := false
  cexCacheSuperSet := false
  cexCacheExperimental := true
  visit := id
  visitTable := id

theorem reports_failure_iff_descending :
    let q : Query := ⟨[], .descending⟩
    ∃ st', unsatisfiable.fails (.truth q) ⟨[], [], (), false⟩ = .ok (false, st') ∧
      ((false = true → st'.failed = true) ↔
        ¬unsatisfiable.Misreports ⟨[], [], (), false⟩ (.truth q)) :=
  ⟨_, rfl, reports_failure_iff unsatisfiable _ _ (.truth ⟨[], .descending⟩) _ rfl⟩

/-- When the cache has it that `arr[1] < arr[0]` contradicts the constraints, the
question whether it is true fails, although the solver below never has. -/
theorem fails_without_failure :
    let q : Query := ⟨[.createIsZero true .descending], .descending⟩
    ∃ st, unsatisfiable.fails (.truth (q.negateExpr true)) ⟨[], [], (), false⟩ =
        .ok (false, st) ∧
      unsatisfiable.fails (.truth q) st = .ok (true, st) ∧ st.failed = false :=
  ⟨_, rfl, rfl, rfl⟩

end VitalSE.CexCachingSolver
