import VitalSE.Proofs.RangeSafe
import VitalSE.Proofs.ResolveSound
import VitalSE.Solver.RangeQuery

/-!
# `getRange` finds the least and the greatest value

Each of the searches is for the least number of which its test is true: the test
is monotone, and it is true of the upper bound. For the least value the test is
that some value is at most the number, for the greatest one that all are. The
number of bits in use only has to give an upper bound on the values.
-/

namespace VitalSE

variable {P : Nat → Prop} {S : Type} {Inv : S → Prop} {s : S} {e : Expr} {w : Nat}
  {impl : SolverImpl S} {A : Valuation → Prop} {cs : List Expr}

section

variable {n : Nat}

theorem atMost_decides (opt : Bool) (hn : n < 2 ^ w) :
    Decides e w (UleExpr.create opt e (Expr.const n w)) (· ≤ n) := by
  refine cmp_decides (fun σ => UleExpr.create_simplifies) fun x => ?_
  rw [CmpKind.apply, BitVec.ule, BitVec.toNat_ofNat, Nat.mod_eq_of_lt hn]

theorem usesBits_decides (opt : Bool) (hn : n < w) :
    Decides e w (EqExpr.create opt (LShrExpr.create opt e (Expr.const n w)) (Expr.const 0 w))
      (· < 2 ^ n) := by
  have hlt : n < 2 ^ w := hn.trans Nat.lt_two_pow_self
  refine (isZero_decides opt).comp (g := (· >>> (BitVec.ofNat w n).toNat)) (fun σ x hx => ?_)
    fun x => ?_
  · exact (shiftCreate_simplifies (.inr rfl)).value (denotes_binary.mpr
      ⟨x, _, hx, denotes_const.mpr ⟨hx.typed.pos, rfl⟩, rfl⟩)
  · rw [BitVec.toNat_ushiftRight, BitVec.toNat_ofNat, Nat.mod_eq_of_lt hlt,
      Nat.shiftRight_eq_div_pow, Nat.div_eq_zero_iff]
    have := Nat.two_pow_pos n
    omega

end

namespace Solver

section

variable {c : Expr} {p : Nat → Prop} [DecidablePred p] (h : impl.Correct A False Inv)
  (hcs : PathCondition A cs) (ha : Valued A cs e w)

include h hcs ha

theorem mustBeTrue_decides (hd : Decides e w c p) (hs : Inv s) :
    Runs (mustBeTrue impl ⟨cs, c⟩) s fun r s' => Inv s' ∧ ∃ b, r = some b ∧
      (b = true ↔ ∀ a, Points A cs e w a → p a) := by
  apply (mustBeTrue_runs h hcs (hd.valued ha) hs).imp
  intro r s' ⟨hs', hr⟩
  cases r with
  | none => exact hr.elim
  | some b => exact ⟨hs', b, rfl, Iff.trans hr (hd.entailed_iff ha)⟩

theorem mayBeTrue_decides (opt : Bool) (hd : Decides e w c p) (hs : Inv s) :
    Runs (mayBeTrue impl opt ⟨cs, c⟩) s fun r s' => Inv s' ∧ ∃ b, r = some b ∧
      (b = true ↔ ∃ a, Points A cs e w a ∧ p a) := by
  have hv := hd.valued ha
  apply Runs.bind (mustBeTrue_runs h hcs (hv.isZero opt) hs)
  intro r s' ⟨hs', hr⟩
  cases r with
  | none => exact hr.elim
  | some b =>
    have hb : b = true ↔ Query.Refuted A ⟨cs, c⟩ := Iff.trans hr (entailed_isZero opt hv)
    refine .pure ⟨hs', !b, rfl, ?_⟩
    rw [← hd.not_refuted_iff ha, ← hb]
    cases b <;> decide

end

/-- The bounds of a single value. -/
theorem bounds_of_all_eq {a v : Nat} (ha : P a) (hall : ∀ a, P a → a = v) :
    IsLeast {a | P a} v ∧ IsGreatest {a | P a} v := by
  obtain rfl := hall a ha
  exact ⟨⟨ha, fun b hb => (hall b hb).ge⟩, ha, fun b hb => (hall b hb).le⟩

/-- The loop finds the least number of which its test is true. -/
theorem search_runs {test : BitVec 64 → SolverM S (Option Bool)} (lo : BitVec 64)
    {hi : BitVec 64} (hmono : ∀ m n, m ≤ n → P m → P n)
    (htest : ∀ mid : BitVec 64, mid.toNat < hi.toNat → ∀ {s}, Inv s →
      Runs (test mid) s fun r s' => Inv s' ∧ ∃ b, r = some b ∧ (b = true ↔ P mid.toNat))
    (hle : lo.toNat ≤ hi.toNat) (hhi : P hi.toNat) (hs : Inv s) :
    Runs (search test lo hi) s fun r s' => Inv s' ∧ lo.toNat ≤ r.toNat ∧
      r.toNat ≤ hi.toNat ∧ P r.toNat ∧ ∀ n, lo.toNat ≤ n → n < r.toNat → ¬P n := by
  induction lo, hi using search.induct generalizing s with
  | case1 lo hi hlt ihlo ihhi =>
    have hlt' : lo.toNat < hi.toNat := hlt
    have hmid := toNat_midpoint hlt
    rw [search, dif_pos hlt]
    refine .bind (htest (midpoint lo hi) (by omega) hs) ?_
    rintro _ s' ⟨hs', b, rfl, hb⟩
    cases b with
    | true =>
      apply (ihlo (fun mid hm => htest mid (by omega)) (by omega) (hb.mp rfl) hs').imp
      intro r s'' ⟨hs'', hlo, hup, hP, hleast⟩
      exact ⟨hs'', hlo, by omega, hP, hleast⟩
    | false =>
      have hnot : ¬P (midpoint lo hi).toNat := fun hP => absurd (hb.mpr hP) (by decide)
      have hsucc : (midpoint lo hi + 1).toNat = (midpoint lo hi).toNat + 1 := by
        have := hi.isLt
        rw [BitVec.toNat_add]
        simp
        omega
      apply (ihhi htest (by omega) hhi hs').imp
      intro r s'' ⟨hs'', hlo, hup, hP, hleast⟩
      refine ⟨hs'', by omega, hup, hP, fun n hn hn' hPn => ?_⟩
      by_cases hnm : n ≤ (midpoint lo hi).toNat
      · exact hnot (hmono n _ hnm hPn)
      · exact hleast n (by omega) hn' hPn
  | case2 lo hi hge =>
    have hge' : ¬lo.toNat < hi.toNat := hge
    have heq : lo.toNat = hi.toNat := by omega
    rw [search, dif_neg hge]
    exact .pure ⟨hs, le_rfl, hle, heq ▸ hhi, fun n hn hn' => absurd hn (by omega)⟩

section

variable {maxValue : BitVec 64} (opt : Bool) (h : impl.Correct A False Inv)
  (hcs : PathCondition A cs) (ha : Valued A cs e w)

include h hcs ha

theorem leastValue_runs (hmax : ∀ a, Points A cs e w a → a ≤ maxValue.toNat)
    (hfits : maxValue.toNat < 2 ^ w) (hs : Inv s) :
    Runs (leastValue impl opt ⟨cs, e⟩ maxValue) s fun r s' => Inv s' ∧
      IsLeast {a | Points A cs e w a} r.toNat := by
  have hwidth : e.getWidth = w := (ha.typed hcs).getWidth_eq
  unfold leastValue atMost
  dsimp only
  rw [hwidth]
  refine .bind (mayBeTrue_decides h hcs ha opt (isZero_decides opt) hs) ?_
  rintro _ s' ⟨hs', b, rfl, hb⟩
  cases b with
  | true =>
    obtain ⟨a, ha, rfl⟩ := hb.mp rfl
    exact .pure ⟨hs', ha, fun a _ => Nat.zero_le a⟩
  | false =>
    obtain ⟨σ, hA, hσ⟩ := hcs.satisfiable
    obtain ⟨x, hx⟩ := ha σ hA hσ
    have hpt : Points A cs e w x.toNat := ⟨σ, hA, hσ, x, hx, rfl⟩
    refine (search_runs 0 (P := fun n => ∃ a, Points A cs e w a ∧ a ≤ n)
      (fun m n hmn ⟨a, ha, hle⟩ => ⟨a, ha, hle.trans hmn⟩)
      (fun mid hmid _ hs => mayBeTrue_decides h hcs ha opt (atMost_decides opt
        (hmid.trans hfits)) hs) (Nat.zero_le _) ⟨_, hpt, hmax _ hpt⟩ hs').imp ?_
    intro r s'' ⟨hs'', _, _, ⟨a, hpa, hle⟩, hleast⟩
    have hlow : ∀ b, Points A cs e w b → r.toNat ≤ b := by
      intro b hpb
      by_contra hlt
      exact hleast b (Nat.zero_le b) (not_le.mp hlt) ⟨b, hpb, le_rfl⟩
    obtain rfl : a = r.toNat := le_antisymm hle (hlow a hpa)
    exact ⟨hs'', hpa, hlow⟩

theorem searchRange_runs (hw : w ≤ 64) (hs : Inv s) :
    Runs (searchRange impl opt ⟨cs, e⟩) s fun r s' => Inv s' ∧
      IsLeast {a | Points A cs e w a} r.1.toNat ∧ IsGreatest {a | Points A cs e w a} r.2.toNat := by
  have hwidth : e.getWidth = w := (ha.typed hcs).getWidth_eq
  have hto : (BitVec.ofNat 64 w).toNat = w := by
    rw [BitVec.toNat_ofNat]
    omega
  unfold searchRange
  rw [hwidth]
  -- The number of bits, which all values have room in.
  refine .bind (search_runs 0 (P := fun n => ∀ a, Points A cs e w a → a < 2 ^ n)
    (fun m n hmn hm a ha => (hm a ha).trans_le (Nat.pow_le_pow_right (by decide) hmn))
    (fun mid hmid _ hs => ?_) (Nat.zero_le _) ?_ hs) ?_
  · unfold usesBits
    rw [hwidth]
    exact mustBeTrue_decides h hcs ha (usesBits_decides opt (hto ▸ hmid)) hs
  · rintro _ ⟨σ, -, -, x, -, rfl⟩
    rw [hto]
    exact x.isLt
  intro bits s' ⟨hs', _, hbits, hroom, _⟩
  obtain ⟨maxValue, hmax⟩ := ValueRange.maxValueOfNBits_total (n := bits.toNat) (by omega)
  have hmaxEq := ValueRange.maxValueOfNBits_eq hmax
  have hpow : 2 ^ bits.toNat ≤ 2 ^ w := Nat.pow_le_pow_right (by decide) (hto ▸ hbits)
  have hpos := Nat.two_pow_pos bits.toNat
  have hle : ∀ a, Points A cs e w a → a ≤ maxValue.toNat := fun a ha => by
    have := hroom a ha
    omega
  refine .except_bind hmax (.bind (leastValue_runs opt h hcs ha hle (by omega) hs') ?_)
  intro min s'' ⟨hs'', hmin⟩
  refine .bind (search_runs min (P := fun n => ∀ a, Points A cs e w a → a ≤ n)
    (fun m n hmn hm a ha => (hm a ha).trans hmn)
    (fun mid hmid _ hs => ?_) (hle _ hmin.1) hle hs'') ?_
  · unfold atMost
    rw [hwidth]
    exact mustBeTrue_decides h hcs ha (atMost_decides opt (by omega)) hs
  intro max s3 ⟨hs3, hlo, _, hup, hleast⟩
  refine .pure ⟨hs3, hmin, ?_, hup⟩
  -- The bound is taken: by the least value, or else one less would do.
  by_cases heq : max.toNat = min.toNat
  · rw [heq]
    exact hmin.1
  · have hnot := hleast (max.toNat - 1) (by omega) (by omega)
    push Not at hnot
    obtain ⟨a, hpa, hlt⟩ := hnot
    have := hup a hpa
    rwa [show max.toNat = a by omega]

theorem rangeBounds_runs (hw : w ≤ 64) (hs : Inv s) :
    Runs (rangeBounds impl opt ⟨cs, e⟩) s fun r _ => IsLeast {a | Points A cs e w a} r.1.toNat ∧
      IsGreatest {a | Points A cs e w a} r.2.toNat := by
  obtain ⟨σ, hA, hσ⟩ := hcs.satisfiable
  obtain ⟨x, hx⟩ := ha σ hA hσ
  have hpt : Points A cs e w x.toNat := ⟨σ, hA, hσ, x, hx, rfl⟩
  have hwidth : e.getWidth = w := hx.typed.getWidth_eq
  unfold rangeBounds
  dsimp only
  rw [hwidth]
  split
  · next hone =>
    subst hone
    have hself : Decides e 1 e (· = 1) := by
      intro σ x hx
      have : ∀ x : BitVec 1, BitVec.ofBool (decide (x.toNat = 1)) = x := by decide
      rw [this]
      exact hx
    have hbit : ∀ a, Points A cs e 1 a → a < 2 := by
      rintro _ ⟨_, _, _, y, _, rfl⟩
      exact y.isLt
    refine .bind (evaluate_runs h hcs ha hs) ?_
    intro r s' ⟨hs', hr⟩
    cases r with
    | none => exact hr.elim
    | some v =>
      cases v with
      | true => exact .pure (bounds_of_all_eq hpt ((hself.entailed_iff ha).mp hr))
      | false =>
        have hall : ∀ a, Points A cs e 1 a → a = 0 := fun a hpa => by
          have := hbit a hpa
          have := (hself.refuted_iff ha).mp hr a hpa
          omega
        exact .pure (bounds_of_all_eq hpt hall)
      | unknown =>
        obtain ⟨hent, href⟩ := hr
        rw [hself.entailed_iff ha] at hent
        obtain ⟨_, hone, rfl⟩ := (hself.not_refuted_iff ha).mp href
        push Not at hent
        obtain ⟨a, hpa, hne⟩ := hent
        obtain rfl : a = 0 := by
          have := hbit a hpa
          omega
        exact .pure ⟨⟨hpa, fun a _ => Nat.zero_le a⟩, hone, fun a ha =>
          Nat.le_of_lt_succ (hbit a ha)⟩
  · split
    · next c =>
      obtain ⟨hpos, hc⟩ := denotes_constant.mp hx
      subst hc
      have hall : ∀ a, Points A cs (.constant ⟨w, x⟩) w a → a = x.toNat := by
        rintro _ ⟨_, _, _, y, hy, rfl⟩
        cases (denotes_constant.mp hy).2
        rfl
      have hto : (BitVec.ofNat 64 x.toNat).toNat = x.toNat := by
        have := x.isLt.trans_le (Nat.pow_le_pow_right (by decide) hw)
        rw [BitVec.toNat_ofNat, Nat.mod_eq_of_lt this]
      rw [if_neg (not_lt.mpr hw)]
      refine .pure ?_
      show IsLeast _ (BitVec.ofNat 64 x.toNat).toNat ∧
        IsGreatest _ (BitVec.ofNat 64 x.toNat).toNat
      rw [hto]
      exact bounds_of_all_eq hpt hall
    · exact (searchRange_runs opt h hcs ha hw hs).imp fun r s' hr => hr.2

end

/-- For an expression of up to 64 bits, a satisfiable path condition and a sound
and complete solver, `getRange` returns the least and the greatest value that the
expression has under the models of the constraints. -/
theorem getRange_exact {S : Type} (impl : SolverImpl S) (A : Valuation → Prop)
    (Inv : S → Prop) (h : impl.Correct A False Inv) (constArrayOpt : Bool) (cs : List Expr)
    (hcs : PathCondition A cs) (e : Expr) (w : Nat) (hw : w ≤ 64) (he : Valued A cs e w)
    (s : S) (hs : Inv s) :
    Runs (getRange impl constArrayOpt ⟨cs, e⟩) s fun r _ => ∃ min max,
      r = (Expr.const min w, Expr.const max w) ∧
      IsLeast {a | Points A cs e w a} min ∧ IsGreatest {a | Points A cs e w a} max := by
  refine .bind (rangeBounds_runs constArrayOpt h hcs he hw hs) ?_
  intro (min, max) s' ⟨hmin, hmax⟩
  have hwidth : e.getWidth = w := (he.typed hcs).getWidth_eq
  exact .pure ⟨min.toNat, max.toNat, by rw [hwidth], hmin, hmax⟩

/-- A byte that is greater than another one. -/
theorem getRange_exact_descending :
    let e := Expr.read Array.four .null (.const 0 32)
    ∃ r, getRange (.ideal fun _ => True) true ⟨[.descending], e⟩ () = .ok (r, ()) ∧
      ∃ min max, r = (Expr.const min 8, Expr.const max 8) ∧
        IsLeast {a | Points (fun _ => True) [.descending] e 8 a} min ∧
        IsGreatest {a | Points (fun _ => True) [.descending] e 8 a} max := by
  obtain ⟨r, _, hrun, hr⟩ := getRange_exact (.ideal fun _ => True) _ _
    (SolverImpl.ideal_correct _) true _ pathCondition_descending _ 8 (by decide)
    (fun σ _ _ => ⟨_, denotes_read_four σ (i := 0) (by decide)⟩) () trivial
  exact ⟨r, hrun, hr⟩

end Solver

end VitalSE
