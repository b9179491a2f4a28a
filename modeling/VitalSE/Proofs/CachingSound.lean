import VitalSE.Proofs.SolverSound
import VitalSE.Solver.CachingSolver
import VitalSE.Solver.Ideal

/-!
# The caching solver answers as the solver below it

What the cache has to keep is that each entry is true of its own key. Polarity
is then a matter of one exchange: to negate a query is to exchange what follows
from the constraints with what they refute, and to negate a partial validity is
the same exchange on what is known. An entry that is kept when a better one
arrives is still a true one.

With that the solver meets the contract of a correct solver, from any cache
whose entries are true, and so does every sequence of queries to it. Two
correct answers to one query are one answer.
-/

namespace VitalSE

open IncompleteSolver (negatePartialValidity)

variable {A : Valuation → Prop} {pv : PartialValidity} {ce : CacheEntry} {mayFail : Prop}

/-- What a partial validity says, where `E` is that the query follows from the
constraints and `R` that they refute it. -/
def PartialValidity.Says (E R : Prop) : PartialValidity → Prop
  | mustBeTrue => E
  | mustBeFalse => R
  | mayBeTrue => ¬R
  | mayBeFalse => ¬E
  | trueOrFalse => ¬E ∧ ¬R
  | none => False

/-- What the cache says of a query is true. -/
def PartialValidity.Of (A : Valuation → Prop) (q : Query)
    (pv : PartialValidity) : Prop := pv.Says (q.Entailed A) (q.Refuted A)

theorem negatePartialValidity_says {E R : Prop} (h : pv.Says E R) :
    ∃ r, negatePartialValidity pv = .ok r ∧ r.Says R E := by
  cases pv with
  | mustBeTrue | mustBeFalse | mayBeTrue | mayBeFalse => exact ⟨_, rfl, h⟩
  | trueOrFalse => exact ⟨_, rfl, h.2, h.1⟩
  | none => exact h.elim

section

variable {q : Query}

theorem Query.Proper.valued (hq : q.Proper A) (hw : q.expr.getWidth = 1) :
    Valued A q.constraints q.expr 1 := fun _ => hq.denotes hw

/-- Satisfiable constraints do not both entail and refute. -/
theorem Query.Entailed.not_refuted (h : q.Entailed A)
    (hsat : Satisfiable A q.constraints) : ¬q.Refuted A := by
  intro hr
  obtain ⟨σ, hA, hσ⟩ := hsat
  exact (h σ hA hσ).not_fails (hr σ hA hσ)

/-- There is one validity for a query. -/
theorem Validity.Of.unique {v v' : Validity} (h : v.Of A q) (h' : v'.Of A q)
    (hsat : Satisfiable A q.constraints) : v = v' := by
  have hno := fun he : q.Entailed A => he.not_refuted hsat
  cases v <;> cases v' <;> simp_all [Validity.Of]

end

namespace CachingSolver

variable {S : Type} {Inv : S → Prop} {cs : CachingSolver S} {st : State S} {q : Query}

/-- Every entry is true of its key, and the solver below is in a good state. -/
structure State.Sound (A : Valuation → Prop) (Inv : S → Prop)
    (st : State S) : Prop where
  cache : ∀ ce pv, (ce, pv) ∈ st.cache → pv.Of A ⟨ce.constraints, ce.query⟩
  inner : Inv st.inner

theorem State.Sound.lookup (h : st.Sound A Inv)
    (hl : st.cache.lookup ce = some pv) : pv.Of A ⟨ce.constraints, ce.query⟩ := by
  obtain ⟨l1, l2, heq, -⟩ := List.lookup_eq_some_iff.mp hl
  exact h.cache ce pv (heq ▸ by simp)

/-- A question to the solver below leaves the cache alone. -/
theorem ask_runs {α : Type} {m : SolverM S α} {P : α → Prop}
    (hst : st.Sound A Inv) (h : Runs m st.inner fun a s => Inv s ∧ P a) :
    Runs (ask m) st fun a st' => st'.Sound A Inv ∧ P a := by
  obtain ⟨a, s, hm, hs, hP⟩ := h
  exact .get_bind (.except_bind hm
    (.modify_bind (.pure ⟨⟨hst.cache, hs⟩, hP⟩)))

/-- What is known of a query is known of its canonical form after the exchange
that the flag asks for, and the other way round. -/
theorem canonicalizeQuery_says (cs : CachingSolver S)
    (hv : Valued A q.constraints q.expr 1) :
    ∃ E R, (∀ pv : PartialValidity, pv.Of A ⟨q.constraints,
        (cs.canonicalizeQuery q.expr).1⟩ ↔ pv.Says E R) ∧
      if (cs.canonicalizeQuery q.expr).2 then R = q.Entailed A ∧ E = q.Refuted A
      else E = q.Entailed A ∧ R = q.Refuted A := by
  refine ⟨_, _, fun pv => Iff.rfl, ?_⟩
  unfold canonicalizeQuery
  by_cases hl : cs.less q.expr (q.expr.createIsZero cs.constArrayOpt)
  · rw [if_pos hl]
    exact ⟨rfl, rfl⟩
  · rw [if_neg hl]
    exact ⟨propext (refuted_isZero _ hv), propext (entailed_isZero _ hv)⟩

theorem State.Sound.insert (hst : st.Sound A Inv)
    (h : pv.Of A ⟨ce.constraints, ce.query⟩) :
    (match st.cache.lookup ce with
      | some _ => st
      | none => { st with cache := (ce, pv) :: st.cache }).Sound A Inv := by
  split
  · exact hst
  · refine ⟨fun ce' pv' hmem => ?_, hst.inner⟩
    rcases List.mem_cons.mp hmem with heq | hmem
    · cases heq
      exact h
    · exact hst.cache ce' pv' hmem

section

variable (hv : Valued A q.constraints q.expr 1) (hst : st.Sound A Inv)

include hv hst

theorem cacheLookup_runs : Runs (cs.cacheLookup q) st fun r st' =>
      st'.Sound A Inv ∧ ∀ pv, r = some pv → pv.Of A q := by
  obtain ⟨E, R, hc, hER⟩ := canonicalizeQuery_says cs hv
  unfold cacheLookup
  generalize cs.canonicalizeQuery q.expr = c at hc hER
  obtain ⟨canonicalQuery, negationUsed⟩ := c
  refine .get_bind ?_
  cases hl : st.cache.lookup ⟨q.constraints, canonicalQuery⟩ with
  | none => exact .pure ⟨hst, by simp⟩
  | some pv =>
    have hpv : pv.Says E R := (hc pv).mp (hst.lookup hl)
    cases negationUsed with
    | true =>
      obtain ⟨rfl, rfl⟩ := hER
      obtain ⟨r, hr, hs⟩ := negatePartialValidity_says hpv
      exact .except_bind hr (.pure ⟨hst, by rintro _ ⟨⟩; exact hs⟩)
    | false =>
      obtain ⟨rfl, rfl⟩ := hER
      exact .pure ⟨hst, by rintro _ ⟨⟩; exact hpv⟩

theorem cacheInsert_runs
    (hpv : pv.Of A q) : Runs (cs.cacheInsert q pv) st fun _ st' => st'.Sound A Inv := by
  obtain ⟨E, R, hc, hER⟩ := canonicalizeQuery_says cs hv
  unfold cacheInsert
  generalize cs.canonicalizeQuery q.expr = c at hc hER
  obtain ⟨canonicalQuery, negationUsed⟩ := c
  cases negationUsed with
  | true =>
    obtain ⟨rfl, rfl⟩ := hER
    obtain ⟨r, hr, hs⟩ := negatePartialValidity_says hpv
    exact .except_bind hr ⟨_, _, rfl, hst.insert ((hc r).mpr hs)⟩
  | false =>
    obtain ⟨rfl, rfl⟩ := hER
    exact ⟨_, _, rfl, hst.insert ((hc pv).mpr hpv)⟩

/-- Store what is known and reply. -/
theorem cacheInsert_reply {α : Type} {P : α → Prop} {a : α} (hpv : pv.Of A q) (ha : P a) :
    Runs (do cs.cacheInsert q pv; return some a) st fun r st' =>
      st'.Sound A Inv ∧ Answer mayFail P r :=
  .bind (cacheInsert_runs hv hst hpv) fun _ _ hst' => .pure ⟨hst', ha⟩

end

section

variable (hin : cs.solver.Correct A mayFail Inv) (hq : q.Proper A)
  (hw : q.expr.getWidth = 1) (hsat : Satisfiable A q.constraints)
  (hst : st.Sound A Inv)

include hin hq hw hsat hst

theorem validityMiss_runs :
    Runs (cs.validityMiss q) st fun r st' =>
      st'.Sound A Inv ∧ Answer mayFail (Validity.Of A q) r := by
  refine .bind (ask_runs hst (hin.validity hq hw hsat hst.inner)) ?_
  rintro r st' ⟨hst', hr⟩
  cases r with
  | none => exact .pure ⟨hst', hr⟩
  | some v =>
    refine cacheInsert_reply (hq.valued hw) hst' ?_ hr
    cases v <;> exact hr

theorem truth_miss :
    Runs (ask (cs.solver.computeTruth q)) st fun r st' =>
      st'.Sound A Inv ∧ Answer mayFail (fun b => b = true ↔ q.Entailed A) r :=
  ask_runs hst (hin.truth hq hw hsat hst.inner)

theorem negated_miss :
    Runs (ask (cs.solver.computeTruth (q.negateExpr cs.constArrayOpt))) st
      fun r st' => st'.Sound A Inv ∧
        Answer mayFail (fun b => b = true ↔ q.Refuted A) r := by
  have hv := hq.valued hw
  have hz := hv.isZero cs.constArrayOpt
  have hcs : PathCondition A q.constraints := ⟨hq.boolean, hq.decided, hsat⟩
  exact answer_imp (ask_runs hst (hin.truth (hz.proper hcs) (hz.typed hcs).getWidth_eq
    hsat hst.inner)) fun b h => h.trans (entailed_isZero _ hv)

theorem computeValidity_runs :
    Runs (cs.computeValidity q) st fun r st' =>
      st'.Sound A Inv ∧ Answer mayFail (Validity.Of A q) r := by
  have hv := hq.valued hw
  refine .bind (cacheLookup_runs hv hst) ?_
  rintro r st' ⟨hst', hr⟩
  cases r with
  | none => exact validityMiss_runs hin hq hw hsat hst'
  | some pv =>
    have hpv : pv.Of A q := hr pv rfl
    cases pv with
    | mustBeTrue | mustBeFalse | trueOrFalse => exact .pure ⟨hst', hpv⟩
    | mayBeTrue =>
      refine .bind (truth_miss hin hq hw hsat hst') ?_
      rintro b st'' ⟨hst'', hb⟩
      match b with
      | none => exact .pure ⟨hst'', hb⟩
      | some true =>
        exact cacheInsert_reply hv hst'' (hb.mp rfl) (hb.mp rfl)
      | some false =>
        have hno : ¬q.Entailed A := fun h => Bool.noConfusion (hb.mpr h)
        exact cacheInsert_reply hv hst'' ⟨hno, hpv⟩ ⟨hno, hpv⟩
    | mayBeFalse =>
      refine .bind (negated_miss hin hq hw hsat hst') ?_
      rintro b st'' ⟨hst'', hb⟩
      match b with
      | none => exact .pure ⟨hst'', hb⟩
      | some true =>
        exact cacheInsert_reply hv hst'' (hb.mp rfl) (hb.mp rfl)
      | some false =>
        have hno : ¬q.Refuted A := fun h => Bool.noConfusion (hb.mpr h)
        exact cacheInsert_reply hv hst'' ⟨hpv, hno⟩ ⟨hpv, hno⟩
    | none => exact hpv.elim

/-- A cached result other than `mayBeTrue` decides the truth of a query. -/
theorem computeTruth_runs :
    Runs (cs.computeTruth q) st fun r st' => st'.Sound A Inv ∧
      Answer mayFail (fun b => b = true ↔ q.Entailed A) r := by
  have hv := hq.valued hw
  refine .bind (cacheLookup_runs hv hst) ?_
  rintro r st' ⟨hst', hr⟩
  by_cases hmiss : r = none ∨ r = some .mayBeTrue
  · rw [if_pos hmiss]
    refine .bind (truth_miss hin hq hw hsat hst') ?_
    rintro b st'' ⟨hst'', hb⟩
    match b with
    | none => exact .pure ⟨hst'', hb⟩
    | some true => exact cacheInsert_reply hv hst'' (hb.mp rfl) hb
    | some false =>
      have hno : ¬q.Entailed A := fun h => Bool.noConfusion (hb.mpr h)
      refine cacheInsert_reply hv hst'' ?_ hb
      rw [if_neg Bool.false_ne_true]
      split
      · next h => exact ⟨hno, hr _ h⟩
      · exact hno
  · rw [if_neg hmiss]
    refine .pure ⟨hst', ?_⟩
    cases r with
    | none => simp at hmiss
    | some pv =>
      have hpv : pv.Of A q := hr pv rfl
      have hno := fun he : q.Entailed A => he.not_refuted hsat
      cases pv <;> simp_all [Answer, PartialValidity.Of, PartialValidity.Says]

end

/-- The caching solver over a correct solver is one. -/
theorem impl_correct (hin : cs.solver.Correct A mayFail Inv) :
    cs.impl.Correct A mayFail (State.Sound A Inv) where
  validity hq hw hsat hst := computeValidity_runs hin hq hw hsat hst
  truth hq hw hsat hst := computeTruth_runs hin hq hw hsat hst
  value hq hsat hst := ask_runs hst (hin.value hq hsat hst.inner)
  initialValues hq hw hst := ask_runs hst (hin.initialValues hq hw hst.inner)

end CachingSolver

/-! ## Sequences of queries -/

namespace SolverImpl

variable {S : Type} {Inv : S → Prop} {impl : SolverImpl S} {r : Request}

/-- A query that may be asked, with satisfiable constraints. -/
def Request.Admissible (A : Valuation → Prop) : Request → Prop
  | .validity q | .truth q =>
    q.Proper A ∧ q.expr.getWidth = 1 ∧ Satisfiable A q.constraints
  | .value q => q.Proper A ∧ Satisfiable A q.constraints

/-- The reply to a request is a correct one. -/
def Request.Answered (A : Valuation → Prop) (mayFail : Prop) :
    Request → Reply → Prop
  | .validity q, .validity r => Answer mayFail (Validity.Of A q) r
  | .truth q, .truth r => Answer mayFail (fun b => b = true ↔ q.Entailed A) r
  | .value q, .value r => Answer mayFail (fun e => ∃ v σ, e = .constant v ∧
      A σ ∧ AllHold σ q.constraints ∧ q.expr.eval σ = some v) r
  | _, _ => False

/-- The same truth or validity, where both replies have one. -/
def Reply.Agrees : Reply → Reply → Prop
  | .validity r, .validity r' => ∀ v v', r = some v → r' = some v' → v = v'
  | .truth r, .truth r' => ∀ b b', r = some b → r' = some b' → b = b'
  | .value _, .value _ => True
  | _, _ => False

theorem reply_runs (h : impl.Correct A mayFail Inv) {s : S}
    (hr : r.Admissible A) (hs : Inv s) :
    Runs (impl.reply r) s fun a s' => Inv s' ∧ r.Answered A mayFail a := by
  cases r with
  | validity q =>
    obtain ⟨hq, hw, hsat⟩ := hr
    exact .bind (h.validity hq hw hsat hs) fun _ _ ha => .pure ha
  | truth q =>
    obtain ⟨hq, hw, hsat⟩ := hr
    exact .bind (h.truth hq hw hsat hs) fun _ _ ha => .pure ha
  | value q =>
    obtain ⟨hq, hsat⟩ := hr
    exact .bind (h.value hq hsat hs) fun _ _ ha => .pure ha

/-- A correct solver replies correctly to one request after the other. -/
theorem replies_runs (h : impl.Correct A mayFail Inv) {rs : List Request}
    {s : S} (hrs : ∀ r ∈ rs, r.Admissible A) (hs : Inv s) :
    Runs (impl.replies rs) s fun as s' =>
      Inv s' ∧ List.Forall₂ (Request.Answered A mayFail) rs as := by
  induction rs generalizing s with
  | nil => exact .pure ⟨hs, .nil⟩
  | cons r rs ih =>
    refine .bind (reply_runs h (hrs r (by simp)) hs) ?_
    rintro a s' ⟨hs', ha⟩
    refine .bind (ih (fun r' hr' => hrs r' (by simp [hr'])) hs') ?_
    rintro as s'' ⟨hs'', has⟩
    exact .pure ⟨hs'', .cons ha has⟩

/-- Two correct replies to one request agree. -/
theorem Request.Answered.agrees {a a' : Reply} (hr : r.Admissible A)
    (h : r.Answered A mayFail a) (h' : r.Answered A mayFail a') :
    a.Agrees a' := by
  cases r <;> cases a <;> try exact h.elim
  all_goals cases a' <;> try exact h'.elim
  · rintro v v' rfl rfl
    exact h.unique h' hr.2.2
  · rintro b b' rfl rfl
    exact Bool.eq_iff_iff.mpr (h.trans h'.symm)
  · trivial

end SolverImpl

open SolverImpl in
/-- Over a correct solver, and from any cache with true entries, every sequence
of queries gets correct replies; and each gives the truth or validity that the
solver below gives when it is asked directly, in whatever state. -/
theorem CachingSolver.replies_agree {S : Type} {A : Valuation → Prop}
    {mayFail : Prop} {Inv : S → Prop} (cs : CachingSolver S)
    (hin : cs.solver.Correct A mayFail Inv) (rs : List Request)
    (hrs : ∀ r ∈ rs, r.Admissible A) (st : State S) (hst : st.Sound A Inv) :
    Runs (cs.impl.replies rs) st fun as st' => st'.Sound A Inv ∧
      List.Forall₂ (fun r a => r.Answered A mayFail a ∧ ∀ s, Inv s →
        Runs (cs.solver.reply r) s fun a' _ => a.Agrees a') rs as := by
  refine (replies_runs (impl_correct hin) hrs hst).imp fun as st' h => ⟨h.1, ?_⟩
  refine (List.forall₂_iff_get.mpr ⟨h.2.length_eq, fun i hi hi' => ?_⟩)
  have ha := h.2.get hi hi'
  have hr := hrs _ (List.get_mem rs ⟨i, hi⟩)
  refine ⟨ha, fun s hs => (reply_runs hin hr hs).imp fun a' _ h' => ?_⟩
  exact ha.agrees hr h'.2

open SolverImpl in
/-- Three queries under `arr[1] < arr[0]`, for a cache that knows that `arr[0]`
may differ from `3`. -/
theorem CachingSolver.replies_agree_four :
    let e := Expr.cmp .eq (.const 3 8) (.read Array.four .null (.const 0 32))
    let q : Query := ⟨[.descending], e⟩
    let cs : CachingSolver Unit :=
      ⟨SolverImpl.ideal fun _ => True, fun _ _ => true, true⟩
    let st : State Unit := ⟨[(⟨[.descending], e⟩, .mayBeFalse)], ()⟩
    let rs := [Request.truth (q.negateExpr true), .validity q, .value q]
    (∀ r ∈ rs, r.Admissible fun _ => True) ∧
      st.Sound (fun _ => True) (fun _ => True) ∧
      Runs (cs.impl.replies rs) st fun as st' =>
        st'.Sound (fun _ => True) (fun _ => True) ∧
        List.Forall₂ (fun r a => r.Answered (fun _ => True) False a ∧
          ∀ s, True → Runs (cs.solver.reply r) s fun a' _ => a.Agrees a')
          rs as := by
  intro e q cs st rs
  have hcs := pathCondition_descending
  have hv : Valued (fun _ => True) [.descending] e 1 := fun σ _ _ =>
    ⟨_, denotes_eq_four σ 3⟩
  have hz := hv.isZero true
  have hrs : ∀ r ∈ rs, r.Admissible fun _ => True := by
    intro r hr
    simp only [rs, List.mem_cons, List.not_mem_nil, or_false] at hr
    rcases hr with rfl | rfl | rfl
    · exact ⟨hz.proper hcs, (hz.typed hcs).getWidth_eq, hcs.satisfiable⟩
    · exact ⟨hv.proper hcs, rfl, hcs.satisfiable⟩
    · exact ⟨hv.proper hcs, hcs.satisfiable⟩
  have hst : st.Sound (fun _ => True) (fun _ => True) := by
    refine ⟨fun ce pv hmem => ?_, trivial⟩
    cases List.mem_singleton.mp hmem
    intro hent
    have h := hent (fun _ i => if i = 0 then 5 else 0) trivial
      (allHold_singleton.mpr (denotes_descending _))
    exact absurd (h.unique (denotes_eq_four _ 3)) (by decide)
  exact ⟨hrs, hst, CachingSolver.replies_agree cs
    (SolverImpl.ideal_correct _) rs hrs st hst⟩

end VitalSE
