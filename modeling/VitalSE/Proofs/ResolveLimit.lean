import VitalSE.Proofs.ResolveSound

/-!
# Resolution with a limit

A search with a limit of two objects or more goes step for step with the search
that has none, until its list has as many objects as the limit says; then it
stops and says that it is incomplete. A limit of one is never compared with the
length of the list, since the first object is checked on another branch: the
search with that limit is the search without one.
-/

namespace VitalSE.AddressSpace

variable {S : Type} {ctx : Context} {t : TimingSolver S} {cs : List Expr}
  {address : Expr} {n : Nat}

/-- The list has not reached the limit, or the limit is not looked at. -/
def Below (n : Nat) (rl : List ObjectPair) : Prop := n ≠ 1 → rl.length < n

/-- The outcome of a search with the limit `n` is that of the search without
one, or the search stopped at the limit and says so. -/
def Cut {α : Type} (incomplete : α) (n : Nat)
    (x x0 : Except Abort ((α × List ObjectPair) × S)) : Prop :=
  (x = x0 ∧ ∀ r rl s, x = .ok ((r, rl), s) → Below n rl) ∨
    ∃ rl s, x = .ok ((incomplete, rl), s) ∧ rl.length = n ∧ n ≠ 1

namespace Cut

variable {α β : Type} {a : α} {b : β} {s : S}

theorem found {r : α} {rl : List ObjectPair} (h : Below n rl) :
    Cut a n (.ok ((r, rl), s)) (.ok ((r, rl), s)) := by
  refine .inl ⟨rfl, fun r' rl' s' heq => ?_⟩
  cases heq
  exact h

/-- A query is the same for both. -/
theorem query {q : SolverM S β} {f f0 : β → SolverM S (α × List ObjectPair)}
    (h : ∀ b s', Cut a n (f b s') (f0 b s')) :
    Cut a n ((q >>= f) s) ((q >>= f0) s) := by
  show Cut a n (q s >>= fun p => f p.1 p.2) (q s >>= fun p => f0 p.1 p.2)
  cases q s with
  | error e => exact .inl ⟨rfl, fun _ _ _ heq => nomatch heq⟩
  | ok p => exact h p.1 p.2

theorem bind {m m0 : SolverM S (α × List ObjectPair)}
    {f f0 : α × List ObjectPair → SolverM S (β × List ObjectPair)}
    (h : Cut a n (m s) (m0 s))
    (hf : ∀ r rl s', Below n rl → Cut b n (f (r, rl) s') (f0 (r, rl) s'))
    (hstop : ∀ rl s', f (a, rl) s' = .ok ((b, rl), s')) :
    Cut b n ((m >>= f) s) ((m0 >>= f0) s) := by
  show Cut b n (m s >>= fun p => f p.1 p.2) (m0 s >>= fun p => f0 p.1 p.2)
  rcases h with ⟨heq, hbelow⟩ | ⟨rl, s', heq, hlen⟩
  · rw [← heq]
    cases hm : m s with
    | error e => exact .inl ⟨rfl, fun _ _ _ heq => nomatch heq⟩
    | ok p => exact hf p.1.1 p.1.2 p.2 (hbelow _ _ _ hm)
  · rw [heq]
    exact .inr ⟨rl, s', hstop rl s', hlen⟩

end Cut

theorem checkPointerInObject_cut (hn : 0 < n) (op : ObjectPair)
    {rl : List ObjectPair} (hrl : Below n rl) (s : S) :
    Cut .incomplete n (checkPointerInObject ctx t cs address op rl n s)
      (checkPointerInObject ctx t cs address op rl 0 s) := by
  have hlen : (rl ++ [op]).length = rl.length + 1 := List.length_append
  refine .query fun may s' => ?_
  match may with
  | none | some false => exact .found hrl
  | some true =>
    dsimp only
    by_cases hone : (rl ++ [op]).length = 1
    · have hbelow : Below n (rl ++ [op]) := fun _ => by omega
      rw [if_pos hone, if_pos hone]
      refine .query fun must s'' => ?_
      match must with
      | none | some true | some false => exact .found hbelow
    · rw [if_neg hone, if_neg hone]
      by_cases heq : (rl ++ [op]).length = n
      · rw [if_pos heq]
        exact .inr ⟨_, s', rfl, heq, by omega⟩
      · rw [if_neg heq, if_neg (by omega)]
        refine .found fun h => ?_
        have := hrl h
        omega

theorem resolveBackward_cut (hn : 0 < n) (l : List ObjectPair) :
    ∀ {rl : List ObjectPair}, Below n rl → ∀ s : S,
      Cut .incomplete n (resolveBackward ctx t cs address n l rl s)
        (resolveBackward ctx t cs address 0 l rl s) := by
  induction l with
  | nil =>
    intro rl hrl s
    exact .found hrl
  | cons op rest ih =>
    intro rl hrl s
    refine (checkPointerInObject_cut hn op hrl s).bind ?_ fun _ _ => rfl
    intro r rl' s' hrl'
    cases r with
    | complete | incomplete => exact .found hrl'
    | unresolved =>
      refine .query fun must s'' => ?_
      match must with
      | none | some true => exact .found hrl'
      | some false => exact ih hrl' s''

theorem resolveForward_cut (hn : 0 < n) (l : List ObjectPair) :
    ∀ {rl : List ObjectPair}, Below n rl → ∀ s : S,
      Cut .incomplete n (resolveForward ctx t cs address n l rl s)
        (resolveForward ctx t cs address 0 l rl s) := by
  induction l with
  | nil =>
    intro rl hrl s
    exact .found hrl
  | cons op rest ih =>
    intro rl hrl s
    refine .query fun must s' => ?_
    match must with
    | none | some true => exact .found hrl
    | some false =>
      refine (checkPointerInObject_cut hn op hrl s').bind ?_ fun _ _ => rfl
      intro r rl' s'' hrl'
      cases r with
      | complete | incomplete => exact .found hrl'
      | unresolved => exact ih hrl' s''

theorem resolve_cut (as : AddressSpace) (hn : 0 < n) (s : S) :
    Cut true n (as.resolve ctx t cs address n s)
      (as.resolve ctx t cs address 0 s) := by
  have hnil : Below n [] := fun _ => hn
  unfold resolve
  split
  · next c =>
    refine .found fun h => ?_
    have hle : (as.resolveConstant c.toNat).toList.length ≤ 1 := by
      cases as.resolveConstant c.toNat <;> simp
    omega
  · refine .query fun v s' => ?_
    cases v with
    | none => exact .found hnil
    | some cex =>
      refine (resolveBackward_cut hn _ hnil s').bind ?_ fun _ _ => rfl
      intro r rl s'' hrl
      cases r with
      | complete | incomplete => exact .found hrl
      | unresolved =>
        refine (resolveForward_cut hn _ hrl s'').bind ?_ fun _ _ => rfl
        intro r rl' s3 hrl'
        exact .found hrl'

theorem resolve_one (as : AddressSpace) (s : S) :
    as.resolve ctx t cs address 1 s = as.resolve ctx t cs address 0 s := by
  rcases resolve_cut as Nat.one_pos s with ⟨heq, -⟩ | ⟨_, _, _, _, hne⟩
  · exact heq
  · exact absurd rfl hne

/-- What a nonzero limit promises: the list is no longer than it, and a list
that is not what the search without a limit finds is said to be incomplete. -/
def Limited (as : AddressSpace) (ctx : Context) (t : TimingSolver S)
    (cs : List Expr) (address : Expr) (n : Nat) (s : S) : Prop :=
  ∀ incomplete rl s',
    as.resolve ctx t cs address n s = .ok ((incomplete, rl), s') →
      rl.length ≤ n ∧ ∀ incomplete0 rl0 s0,
        as.resolve ctx t cs address 0 s = .ok ((incomplete0, rl0), s0) →
          rl ≠ rl0 → incomplete = true

/-- Every other limit is kept, with whatever solver. -/
theorem limited_of_ne_one (as : AddressSpace) (hn : 0 < n) (hne : n ≠ 1) (s : S) :
    Limited as ctx t cs address n s := by
  intro incomplete rl s' hrun
  rcases resolve_cut as hn s with ⟨heq, hbelow⟩ | ⟨rl', s'', hrun', hlen, -⟩
  · refine ⟨(hbelow _ _ _ hrun hne).le, fun _ rl0 _ hrun0 hne => ?_⟩
    rw [← heq, hrun] at hrun0
    cases hrun0
    exact absurd rfl hne
  · rw [hrun] at hrun'
    cases hrun'
    exact ⟨hlen.le, fun _ _ _ _ _ => rfl⟩

/-- The pointer may be in bounds of one object at most. -/
def Single (A : Valuation → Prop) (cs : List Expr) (address : Expr) (w : Nat)
    (objects : List ObjectPair) : Prop :=
  ∀ op ∈ objects, ∀ op' ∈ objects, MayPoint A cs address w op → MayPoint A cs address w op' →
    op = op'

/-- Over a correct solver, a limit of one is kept just when it cuts nothing off:
the list has all objects that the pointer may be in bounds of. -/
theorem limited_one_iff {A : Valuation → Prop} {Inv : S → Prop} {as : AddressSpace} {s : S}
    (hsolver : t.solver.Correct A False Inv) (hs : Inv s) (hcs : PathCondition A cs)
    (haddress : Valued A cs address ctx.pointerWidth) (hw : 32 ≤ ctx.pointerWidth)
    (hl : Layout ctx as.objects) :
    Limited as ctx t cs address 1 s ↔ Single A cs address ctx.pointerWidth as.objects := by
  obtain ⟨⟨b, rl⟩, s1, hrun, -, -, hnodup, hmem⟩ := resolve_runs hsolver hcs haddress hw hl hs
  have hone := (resolve_one as s).trans hrun
  constructor
  · intro h op hop op' hop' hmay hmay'
    have hlen := (h b rl s1 hone).1
    have hin := (hmem op).mpr ⟨hop, hmay⟩
    have hin' := (hmem op').mpr ⟨hop', hmay'⟩
    match rl, hlen with
    | [only], _ => exact (List.mem_singleton.mp hin).trans (List.mem_singleton.mp hin').symm
  · intro h incomplete rl' s' hrun'
    cases hone.symm.trans hrun'
    refine ⟨?_, fun _ _ _ hrun0 hne => ?_⟩
    · match rl, hnodup with
      | [], _ | [_], _ => simp
      | op :: op' :: rest, hnodup =>
        obtain ⟨hop, hmay⟩ := (hmem op).mp (by simp)
        obtain ⟨hop', hmay'⟩ := (hmem op').mp (by simp)
        simp [h op hop op' hop' hmay hmay'] at hnodup
    · cases hrun.symm.trans hrun0
      exact absurd rfl hne

/-- Every limit but one is kept, with whatever solver. With a correct one, a
limit of one is kept just for the pointers that may be in bounds of no more than
one object. -/
theorem limited_iff (as : AddressSpace) (ctx : Context) (t : TimingSolver S)
    (cs : List Expr) (address : Expr) (n : Nat) (s : S) (hn : 0 < n) :
    (n ≠ 1 → Limited as ctx t cs address n s) ∧
      ∀ (A : Valuation → Prop) (Inv : S → Prop), t.solver.Correct A False Inv → Inv s →
        PathCondition A cs → Valued A cs address ctx.pointerWidth → 32 ≤ ctx.pointerWidth →
        Layout ctx as.objects → (Limited as ctx t cs address n s ↔
          (n = 1 → Single A cs address ctx.pointerWidth as.objects)) := by
  refine ⟨fun hne => limited_of_ne_one as hn hne s, fun A Inv hsolver hs hcs ha hw hl => ?_⟩
  have hiff := limited_one_iff hsolver hs hcs ha hw hl
  constructor
  · rintro h rfl
    exact hiff.mp h
  · intro h
    by_cases hone : n = 1
    · subst hone
      exact hiff.mpr (h rfl)
    · exact limited_of_ne_one as hn hone s

/-- A limit of two is kept, and one of one if the pointer had a single object. -/
theorem limited_three :
    let t : TimingSolver Unit := ⟨SolverImpl.ideal fun _ => True, true, true⟩
    let Kept (n : Nat) := Limited three ⟨64, true⟩ t [.descending] farPointer n ()
    Kept 2 ∧ (Kept 1 ↔
      (1 = 1 → Single (fun _ => True) [.descending] farPointer 64 three.objects)) :=
  ⟨(limited_iff three ⟨64, true⟩ _ [.descending] farPointer 2 () (by decide)).1 (by decide),
    (limited_iff three ⟨64, true⟩ _ [.descending] farPointer 1 () (by decide)).2 _ _
      (SolverImpl.ideal_correct fun _ => True) trivial pathCondition_descending
      valued_farPointer (by decide) layout_three⟩

/-- With a limit of one, the pointer is resolved to more than one object. -/
theorem not_limited_three :
    let t : TimingSolver Unit := ⟨SolverImpl.ideal fun _ => True, true, true⟩
    ¬Limited three ⟨64, true⟩ t [.descending] farPointer 1 () := by
  intro t h
  have hone := (limited_one_iff (SolverImpl.ideal_correct fun _ => True) trivial
    pathCondition_descending valued_farPointer (by decide) layout_three).mp h
  have hmay (op : ObjectPair) (x : BitVec 8) (hx : (0#8).ult x)
      (hcov : op.1.Covers (4096#64 + x.setWidth 64).toNat) :
      MayPoint (fun _ => True) [.descending] farPointer 64 op := by
    have hσ : Denotes _ _ (BitVec.ofBool ((0#8).ult x)) :=
      denotes_descending fun _ i => if i = 0 then x else 0
    rw [hx] at hσ
    exact ⟨_, ⟨fun _ i => if i = 0 then x else 0, trivial,
      fun c hc => List.mem_singleton.mp hc ▸ hσ, _, denotes_farPointer _, rfl⟩, hcov⟩
  -- `arr[0] = 1` is in the first object, and `arr[0] = 204` in the last.
  have heq := hone _ (.head _) _ (.tail _ (.tail _ (.head _))) (hmay _ 1 (by decide) (by decide))
    (hmay _ 204 (by decide) (by decide))
  exact absurd (congrArg Prod.snd heq) (by decide)

end VitalSE.AddressSpace
