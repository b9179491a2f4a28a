import VitalSE.Proofs.CachingSound

/-!
# What the caching solver answers from its cache

The cache has at most one result under the canonical form of a query, and the
map never replaces it. A full result answers both kinds of query, for the
expression and for its negation, and it stays for ever. A partial one stays as
well: when the solver finds out the rest, what it wants to store is dropped, and
the solver below is asked again and again.
-/

namespace VitalSE

open IncompleteSolver (negatePartialValidity)
open SolverImpl (Request Reply)

/-- It answers a question for the validity. -/
def PartialValidity.isFull : PartialValidity → Bool
  | mustBeTrue | mustBeFalse | trueOrFalse => true
  | mayBeTrue | mayBeFalse | none => false

/-- The query that is asked about. -/
def SolverImpl.Request.query : Request → Query
  | .validity q | .truth q | .value q => q

namespace CachingSolver

/-- What the cache has for a query is under this key. -/
def key {S : Type} (cs : CachingSolver S) (q : Query) : CacheEntry :=
  ⟨q.constraints, (cs.canonicalizeQuery q.expr).1⟩

/-- What the cache says of a query. -/
def known {S : Type} (cs : CachingSolver S) (cache : List (CacheEntry × PartialValidity))
    (q : Query) : Option PartialValidity :=
  (cache.lookup (cs.key q)).bind fun pv =>
    if (cs.canonicalizeQuery q.expr).2 then (negatePartialValidity pv).toOption else some pv

/-- The reply says, with what the cache has, that the query is true, false or
neither. -/
def settles {S : Type} (cs : CachingSolver S) (cache : List (CacheEntry × PartialValidity))
    (q : Query) : Reply → Bool
  | .validity (some _) | .truth (some true) => true
  -- not true, and more than that it may be false was known
  | .truth (some false) => (cs.known cache q).any (· ∈ [.mayBeTrue, .mustBeFalse, .trueOrFalse])
  | _ => false

/-- The cache knows all about the entry. -/
def Full (cache : List (CacheEntry × PartialValidity)) (ce : CacheEntry) : Prop :=
  (cache.lookup ce).any (·.isFull) = true

/-- The request is answered whatever the solver below is, and nothing changes:
the solver below is not asked. -/
def AnsweredByCache {S : Type} (cs : CachingSolver S)
    (cache : List (CacheEntry × PartialValidity)) (r : Request) : Prop :=
  ∀ (solver : SolverImpl S) (s : S),
    Runs ((impl { cs with solver := solver }).reply r) ⟨cache, s⟩ fun _ st =>
      st = ⟨cache, s⟩

variable {S : Type} {cs : CachingSolver S} {st : State S} {q : Query}
  {cache cache' : List (CacheEntry × PartialValidity)} {ce : CacheEntry}
  {pv : PartialValidity} {settled : Prop} {α : Type}

/-- To negate what is known is not to know more or less. -/
theorem negatePartialValidity_full {r : PartialValidity}
    (h : negatePartialValidity pv = .ok r) : r.isFull = pv.isFull := by
  cases pv <;> cases h <;> rfl

theorem cacheLookup_meets :
    Meets (st.cache.lookup (cs.key q) ≠ some .none) (cs.cacheLookup q) st fun r st' =>
      st' = st ∧ r = cs.known st.cache q ∧ r.map PartialValidity.isFull =
        (st.cache.lookup (cs.key q)).map PartialValidity.isFull := by
  rcases hcan : cs.canonicalizeQuery q.expr with ⟨e, negationUsed⟩
  have hkey : cs.key q = ⟨q.constraints, e⟩ := by rw [key, hcan]
  rw [known, hkey, cacheLookup, hcan]
  refine .get_bind ?_
  dsimp only
  cases st.cache.lookup ⟨q.constraints, e⟩ with
  | none => exact .pure ⟨rfl, rfl, rfl⟩
  | some pv =>
    dsimp only [Option.bind_some]
    split
    · refine .except_bind (p := fun _ => True) (fun hc => ?_) fun r hr _ =>
        .pure ⟨rfl, by rw [hr]; rfl, congrArg some (negatePartialValidity_full hr)⟩
      cases pv with
      | none => exact absurd rfl hc
      | _ => exact ⟨_, rfl, trivial⟩
    · exact .pure ⟨rfl, rfl, rfl⟩

/-! ## Hits -/

theorem cacheLookup_runs_full (h : Full st.cache (cs.key q)) :
    Runs (cs.cacheLookup q) st fun r st' => st' = st ∧ ∃ pv, r = some pv ∧ pv.isFull = true := by
  have hmeets := @cacheLookup_meets S cs st q
  obtain ⟨pv, hpv, hfull⟩ := (Option.any_eq_true _ _).mp h
  rw [hpv] at hmeets
  obtain ⟨⟨r, st'⟩, hrun⟩ := hmeets.returns (by rintro ⟨⟩; cases hfull)
  obtain ⟨hst, -, hr⟩ := hmeets.yields r st' hrun
  obtain ⟨pv', rfl, hpv'⟩ := Option.map_eq_some_iff.mp hr
  exact ⟨_, _, hrun, hst, pv', rfl, hpv'.trans hfull⟩

theorem Full.answered (h : Full cache (cs.key q)) :
    AnsweredByCache cs cache (.validity q) ∧ AnsweredByCache cs cache (.truth q) := by
  refine ⟨fun solver s => .bind (.bind (cacheLookup_runs_full h) ?_) fun _ _ hst => .pure hst,
    fun solver s => .bind (.bind (cacheLookup_runs_full h) ?_) fun _ _ hst => .pure hst⟩
  · rintro _ st' ⟨rfl, pv, rfl, hpv⟩
    cases pv with
    | mustBeTrue | mustBeFalse | trueOrFalse => exact .pure rfl
    | mayBeTrue | mayBeFalse | none => cases hpv
  · rintro _ st' ⟨rfl, pv, rfl, hpv⟩
    rw [if_neg (by rintro (h | h) <;> cases h; cases hpv)]
    exact .pure rfl

/-- A solver that cannot be asked. -/
def deaf (S : Type) : SolverImpl S where
  computeValidity _ := throw (.fatal "asked")
  computeTruth _ := throw (.fatal "asked")
  computeValue _ := throw (.fatal "asked")
  computeInitialValues _ _ := throw (.fatal "asked")

theorem ask_deaf {e : Abort} : Yields (ask (throw e : SolverM S α)) st fun _ _ => False := by
  intro a st' heq
  cases heq

/-- A validity query that does not need the solver below has a full entry. -/
theorem full_of_answered [Inhabited S]
    (h : AnsweredByCache cs cache (.validity q)) : Full cache (cs.key q) := by
  obtain ⟨a, st', hrun, -⟩ := h (deaf S) default
  refine Yields.bind (R := fun _ _ => Full cache (cs.key q))
    (cacheLookup_meets.yields.bind ?_) (fun _ _ h => .pure h) a st' hrun
  rintro r _ ⟨rfl, -, hr⟩
  cases r with
  | none => exact .bind ask_deaf fun _ _ h => h.elim
  | some pv =>
    obtain ⟨pv', hlookup, hpv'⟩ := Option.map_eq_some_iff.mp hr.symm
    cases pv with
    | mayBeTrue | mayBeFalse => exact .bind ask_deaf fun _ _ h => h.elim
    | none => exact .throw
    | mustBeTrue | mustBeFalse | trueOrFalse =>
      exact .pure ((Option.any_eq_true _ _).mpr ⟨pv', hlookup, hpv'⟩)

/-! ## What a request leaves in the cache -/

/-- After a query nothing but the entry for its key is new, and only if there was
none before. If the query is settled the new one is full. -/
def Remembers (ce : CacheEntry) (settled : Prop)
    (cache cache' : List (CacheEntry × PartialValidity)) : Prop :=
  ∃ new : Option PartialValidity, (settled → new.any (·.isFull) = true) ∧
    ∀ ce', cache'.lookup ce' =
      if ce' = ce then (cache.lookup ce).or new else cache.lookup ce'

theorem Remembers.unchanged (h : settled → cache.lookup ce ≠ none) :
    Remembers ce settled cache cache := by
  by_cases hs : settled
  · obtain ⟨pv, hpv⟩ := Option.ne_none_iff_exists'.mp (h hs)
    exact ⟨some .trueOrFalse, fun _ => rfl, fun ce' => by split <;> simp_all⟩
  · exact ⟨none, fun h => absurd h hs, fun ce' => by split <;> simp_all⟩

theorem Remembers.full_iff (h : Remembers ce settled cache cache') (hs : settled)
    (ce' : CacheEntry) :
    Full cache' ce' ↔ if ce' = ce then cache.lookup ce = none ∨ Full cache ce
      else Full cache ce' := by
  obtain ⟨new, hnew, hlookup⟩ := h
  rw [Full, hlookup ce']
  split
  · rw [Full]
    cases cache.lookup ce <;> simp [hnew hs]
  · rfl

theorem Remembers.keeps {ce' : CacheEntry} (h : Remembers ce settled cache cache')
    (hfull : Full cache ce') : Full cache' ce' := by
  obtain ⟨new, -, hlookup⟩ := h
  obtain ⟨pv, hpv, -⟩ := (Option.any_eq_true _ _).mp hfull
  rw [Full, hlookup ce']
  split
  · next heq => rwa [← heq, hpv, Option.some_or, ← hpv]
  · exact hfull

/-- An answer is kept, unless there is one already. -/
def State.put (ce : CacheEntry) (r : PartialValidity) (st : State S) : State S :=
  match st.cache.lookup ce with
  | some _ => st
  | none => { st with cache := (ce, r) :: st.cache }

theorem cacheInsert_yields : Yields (cs.cacheInsert q pv) st fun _ st' =>
      Remembers (cs.key q) (pv.isFull = true) st.cache st'.cache := by
  have hput {r : PartialValidity} (hr : r.isFull = pv.isFull) :
      Yields (modify (·.put (cs.key q) r) : SolverM (State S) Unit) st fun _ st' =>
        Remembers (cs.key q) (pv.isFull = true) st.cache st'.cache := by
    intro _ st' heq
    cases heq
    refine ⟨some r, hr.trans, fun ce' => ?_⟩
    dsimp only [State.put]
    split
    · next hl => split <;> simp_all
    · next hl => rw [List.lookup_cons, hl]; split <;> simp_all
  unfold cacheInsert
  dsimp only
  split
  · exact .except_bind fun r hr => hput (negatePartialValidity_full hr)
  · exact hput rfl

theorem ask_yields {m : SolverM S α} : Yields (ask m) st fun _ st' => st'.cache = st.cache :=
  .get_bind (.except_bind fun _ _ => .modify_bind (.pure rfl))

/-- Store what the solver below says and reply, after it was asked. -/
theorem cacheInsert_remembers {a : α} {st' : State S} {settles : Option α → Bool}
    (hst : st'.cache = st.cache) (h : settles (some a) = true → pv.isFull = true) :
    Yields (do cs.cacheInsert q pv; return some a) st' fun r st'' =>
      Remembers (cs.key q) (settles r = true) st.cache st''.cache :=
  .bind cacheInsert_yields fun _ _ ⟨new, hnew, hlookup⟩ =>
    .pure ⟨new, hnew ∘ h, hst ▸ hlookup⟩

theorem computeValidity_remembers : Yields (cs.computeValidity q) st fun r st' =>
    Remembers (cs.key q) (r.isSome = true) st.cache st'.cache := by
  refine cacheLookup_meets.yields.bind ?_
  rintro r st ⟨rfl, -, hr⟩
  cases r with
  | none =>
    refine .bind ask_yields fun r st' hst => ?_
    cases r with
    | none => exact .pure (hst ▸ .unchanged nofun)
    | some v => exact cacheInsert_remembers hst fun _ => by cases v <;> rfl
  | some pv =>
    cases pv with
    | mayBeTrue | mayBeFalse =>
      refine .bind ask_yields fun r st' hst => ?_
      match r with
      | none => exact .pure (hst ▸ .unchanged nofun)
      | some true | some false => exact cacheInsert_remembers hst fun _ => rfl
    | none => exact .throw
    | mustBeTrue | mustBeFalse | trueOrFalse =>
      exact .pure (.unchanged fun _ hnone => by simp [hnone] at hr)

theorem computeTruth_remembers : Yields (cs.computeTruth q) st fun r st' =>
    Remembers (cs.key q) (cs.settles st.cache q (.truth r) = true) st.cache st'.cache := by
  refine cacheLookup_meets.yields.bind ?_
  rintro r st ⟨rfl, hknown, hr⟩
  by_cases hmiss : r = none ∨ r = some .mayBeTrue
  · rw [if_pos hmiss]
    refine .bind ask_yields fun b st' hst => ?_
    match b with
    | none => exact .pure (hst ▸ .unchanged nofun)
    | some true => exact cacheInsert_remembers hst fun _ => rfl
    | some false =>
      refine cacheInsert_remembers hst fun hsettles => ?_
      rcases hmiss with rfl | rfl
      · simp [settles, ← hknown] at hsettles
      · rfl
  · rw [if_neg hmiss]
    refine .pure (.unchanged fun _ hnone => hmiss (.inl ?_))
    simpa [hnone] using hr

theorem reply_remembers (r : Request) : Yields (cs.impl.reply r) st fun a st' =>
    Remembers (cs.key r.query) (cs.settles st.cache r.query a = true) st.cache st'.cache := by
  cases r with
  | validity q =>
    refine computeValidity_remembers.bind fun r st' h => .pure ?_
    cases r <;> exact h
  | truth q =>
    exact computeTruth_remembers.bind fun r st' h => .pure h
  | value q => exact .bind ask_yields fun _ _ h => .pure (h ▸ .unchanged nofun)

/-- A full entry stays, whatever is asked. -/
theorem replies_keep_full (rs : List Request) (h : Full st.cache ce) :
    Yields (cs.impl.replies rs) st fun _ st' => Full st'.cache ce := by
  induction rs generalizing st with
  | nil => exact .pure h
  | cons r rs ih =>
    exact (reply_remembers r).bind fun a st' hr =>
      .bind (ih (hr.keeps h)) fun _ _ h => .pure h

/-- When the validity of a query is found out, the queries for the expression and
for its negation are answered from the cache from then on, exactly if what the
cache had for the query was not partial, and what it has for it serves the
negation too. -/
theorem answeredByCache_iff [Inhabited S] (cs : CachingSolver S) (st st1 : State S)
    (r : Request) (a : Reply) (hr : cs.impl.reply r st = .ok (a, st1))
    (ha : cs.settles st.cache r.query a = true) :
    let ce := cs.key r.query
    let ce' := cs.key (r.query.negateExpr cs.constArrayOpt)
    (∀ rs as st2, cs.impl.replies rs st1 = .ok (as, st2) →
      ∀ q ∈ [r.query, r.query.negateExpr cs.constArrayOpt],
        AnsweredByCache cs st2.cache (.validity q) ∧
        AnsweredByCache cs st2.cache (.truth q)) ↔
    (st.cache.lookup ce = none ∨ Full st.cache ce) ∧ (ce' = ce ∨ Full st.cache ce') := by
  intro ce ce'
  have hrem := reply_remembers r a st1 hr
  have hself := (hrem.full_iff ha ce).trans (iff_of_eq (if_pos rfl))
  have hother := hrem.full_iff ha ce'
  constructor
  · intro h
    replace h := h [] [] st1 rfl
    have hq := full_of_answered (h r.query (by simp)).1
    have hq' := hother.mp (full_of_answered (h _ (by simp)).1)
    refine ⟨hself.mp hq, or_iff_not_imp_left.mpr fun hkey => ?_⟩
    rwa [if_neg hkey] at hq'
  · rintro ⟨hq, hq'⟩ rs as st2 hrun q hmem
    rcases List.mem_pair.mp hmem with rfl | rfl
    · exact (replies_keep_full rs (hself.mpr hq) as st2 hrun).answered
    · refine (replies_keep_full rs (hother.mpr ?_) as st2 hrun).answered
      split
      · exact hq
      · next hkey => exact hq'.resolve_left hkey

/-- The caching solver over one for queries that are true in some models and false
in others; it keeps `arr[1] < arr[0]` and not the negation. -/
def undecided : CachingSolver Unit where
  solver :=
    { computeValidity := fun _ => return some .unknown
      computeTruth := fun _ => return some false
      computeValue := fun _ => return none
      computeInitialValues := fun _ _ => return none }
  less e _ := e = .descending
  constArrayOpt := true

theorem answeredByCache_descending :
    let r : Request := .validity ⟨[], .descending⟩
    ∃ st, undecided.impl.reply r ⟨[], ()⟩ = .ok (.validity (some .unknown), st) ∧
      ∀ rs as st2, undecided.impl.replies rs st = .ok (as, st2) →
        ∀ q ∈ [r.query, r.query.negateExpr undecided.constArrayOpt],
          AnsweredByCache undecided st2.cache (.validity q) ∧
          AnsweredByCache undecided st2.cache (.truth q) :=
  ⟨_, rfl, (answeredByCache_iff undecided ⟨[], ()⟩ _ (.validity ⟨[], .descending⟩) _ rfl rfl).mpr
    ⟨.inl rfl, .inl (by decide +kernel)⟩⟩

/-- After a truth query the cache knows that `arr[1] < arr[0]` may be false. The
validity query that finds out that it may be true as well does not get its result
into the cache, and the next one asks the solver below again. -/
theorem not_answered_after_truth :
    let q : Query := ⟨[], .descending⟩
    ∃ st, undecided.impl.replies [.truth q, .validity q] ⟨[], ()⟩ =
        .ok ([.truth (some false), .validity (some .unknown)], st) ∧
      ¬AnsweredByCache undecided st.cache (.validity q) :=
  ⟨_, rfl, fun h => Bool.false_ne_true (full_of_answered h)⟩

end CachingSolver

end VitalSE
