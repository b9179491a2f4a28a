import VitalSE.Core.Intrinsics
import VitalSE.Proofs.FastCexSound

/-!
# Intrinsics on integers of any width

The funnel shifts, minima and maxima are right at every width. An absolute value
takes minus one and the least integer through 64 bits, so it is built for widths
up to 64 and aborts beyond.
-/

namespace VitalSE

open BitVec

variable {σ : Valuation} {opt : Bool} {w : Nat} {op1 op2 op3 poison : Expr} {x y z : BitVec w}

theorem ConstantExpr.create_toNat (x : BitVec w) : create x.toNat w = .ok (.constant ⟨w, x⟩) := by
  have hconst : Expr.const x.toNat w = .constant ⟨w, x⟩ := by simp [Expr.const, APInt.ofNat]
  unfold create
  rw [Abort.assert_ok (Nat.mod_eq_of_lt x.isLt).symm, hconst]
  split <;> rfl

namespace Executor

/-! ## Funnel shifts -/

/-- The operands stand side by side, are shifted by an amount that counts modulo
the width, and the upper or the lower half is taken. -/
def FunnelShift.value (f : FunnelShift) (x y z : BitVec w) : BitVec w :=
  match f with
  | fshl => ((x ++ y) <<< (z.toNat % w)).extractLsb' w w
  | fshr => ((x ++ y) >>> (z.toNat % w)).extractLsb' 0 w

/-- The amount of a funnel shift, at twice the width. -/
theorem amount_denotes (hz : Denotes σ op3 z) : ∃ s : BitVec (w + w), s.toNat = z.toNat % w ∧
      Denotes σ (ZExtExpr.create (URemExpr.create op3 (.const w w)) (w + w)) s := by
  have hw := hz.typed.pos
  have hof : (BitVec.ofNat w w).toNat = w := Nat.mod_eq_of_lt Nat.lt_two_pow_self
  have hne : BitVec.ofNat w w ≠ 0 := fun h0 => by
    simp [h0] at hof
    omega
  have hrem : Denotes σ (URemExpr.create op3 (.const w w)) (z % BitVec.ofNat w w) :=
    (remCreate_simplifies (by decide)).value (denotes_binary.mpr
      ⟨z, _, hz, denotes_const.mpr ⟨hw, rfl⟩, if_neg hne⟩)
  refine ⟨_, ?_, (ZExtExpr.create_spec hrem.typed (by omega)).2 hrem⟩
  rw [toNat_setWidth_of_le (by omega), toNat_umod, hof]

/-- The expression has the value of the funnel shift. -/
def FunnelShift.Exact (f : FunnelShift) (w : Nat) (op1 op2 op3 e : Expr) : Prop :=
  ∀ {σ} {x y z : BitVec w}, Denotes σ op1 x → Denotes σ op2 y → Denotes σ op3 z →
    Denotes σ e (f.value x y z)

theorem funnelShift_exact (f : FunnelShift) (h1 : Typed op1 w) (h2 : Typed op2 w)
    (h3 : Typed op3 w) : ∃ e, funnelShift opt f op1 op2 op3 = .ok e ∧ f.Exact w op1 op2 op3 e := by
  have hw := h1.pos
  have hconst : ConstantExpr.create w w = .ok (.const w w) := by
    have h := ConstantExpr.create_toNat (BitVec.ofNat w w)
    rwa [toNat_ofNat, Nat.mod_eq_of_lt Nat.lt_two_pow_self] at h
  unfold funnelShift
  simp only [h1.getWidth_eq, h2.getWidth_eq, h3.getWidth_eq, Abort.assert_ok, hconst]
  have hconcat : ∀ {σ} {x y : BitVec w}, Denotes σ op1 x → Denotes σ op2 y →
      Denotes σ (ConcatExpr.create op1 op2) (x ++ y) := fun hx hy =>
    ConcatExpr.create_simplifies.value ((denotes_concat h1 h2).mpr ⟨_, _, hx, hy, rfl⟩)
  cases f with
  | fshl =>
    refine ⟨_, rfl, fun hx hy hz => ?_⟩
    obtain ⟨s, hs, hsd⟩ := amount_denotes hz
    refine (ExtractExpr.create_simplifies _ le_rfl).value (denotes_extract.mpr ⟨hw, _, _, le_rfl,
      (shiftCreate_simplifies (.inl rfl)).value (denotes_binary.mpr
        ⟨_, s, hconcat hx hy, hsd, rfl⟩), ?_⟩)
    rw [hs]
    rfl
  | fshr =>
    refine ⟨_, rfl, fun hx hy hz => ?_⟩
    obtain ⟨s, hs, hsd⟩ := amount_denotes hz
    refine (ExtractExpr.create_simplifies _ le_rfl).value (denotes_extract.mpr ⟨hw, _, _, by omega,
      (shiftCreate_simplifies (.inr rfl)).value (denotes_binary.mpr
        ⟨_, s, hconcat hx hy, hsd, rfl⟩), ?_⟩)
    rw [hs]
    rfl

/-! ## Minima and maxima -/

/-- What the intrinsic means. -/
def MinMax.value (f : MinMax) (x y : BitVec w) : BitVec w :=
  match f with
  | smax => if y.toInt < x.toInt then x else y
  | smin => if x.toInt < y.toInt then x else y
  | umax => if y.toNat < x.toNat then x else y
  | umin => if x.toNat < y.toNat then x else y

theorem denotes_selectCreate {c t f : Expr} {p : Prop} [Decidable p]
    (hc : Denotes σ c (ofBool p)) (ht : Denotes σ t x) (hf : Denotes σ f y) :
    Denotes σ (SelectExpr.create opt c t f) (if p then x else y) := by
  refine SelectExpr.create_simplifies.value (denotes_select.mpr ⟨_, x, y, hc, ht, hf, ?_⟩)
  by_cases hp : p <;> simp [hp]

theorem minMax_exact (f : MinMax) (hx : Denotes σ op1 x) (hy : Denotes σ op2 y) :
    Denotes σ (minMax opt f op1 op2) (f.value x y) := by
  have hcmp : ∀ ck : CmpKind, Denotes σ (.cmp ck op1 op2) (ofBool (ck.apply x y)) :=
    fun ck => denotes_cmp.mpr ⟨w, x, y, hx, hy, rfl⟩
  cases f with
  | smax => exact denotes_selectCreate (SgtExpr.create_simplifies.value (hcmp .sgt)) hx hy
  | smin => exact denotes_selectCreate (SltExpr.create_simplifies.value (hcmp .slt)) hx hy
  | umax => exact denotes_selectCreate (UgtExpr.create_simplifies.value (hcmp .ugt)) hx hy
  | umin => exact denotes_selectCreate (UltExpr.create_simplifies.value (hcmp .ult)) hx hy

/-! ## Absolute values -/

theorem getZExtValue_eq (h : w ≤ 64) : getZExtValue ⟨w, x⟩ = .ok x.toNat := by
  have hlt : x.toNat < 2 ^ 64 := x.isLt.trans_le (Nat.pow_le_pow_right two_pos h)
  exact congrArg (Except.map fun _ => x.toNat) (Abort.assert_ok hlt)

theorem ofInt_abs :
    BitVec.ofInt w |x.toInt| = if x.toInt < 0 ∧ x ≠ intMin w then x * allOnes w else x := by
  have hneg : x * allOnes w = -x := by
    rw [← neg_one_eq_allOnes, BitVec.mul_neg, BitVec.mul_one]
  rw [hneg]
  by_cases hx : x.toInt < 0
  · have habs : BitVec.ofInt w |x.toInt| = -x := by
      rw [abs_of_neg hx, ofInt_neg, ofInt_toInt]
    rw [habs]
    by_cases hmin : x = intMin w
    · simp [hmin]
    · simp [hmin, hx]
  · simp [hx, abs_of_nonneg (not_lt.mp hx)]

theorem absSelect_denotes (hx : Denotes σ op1 x) :
    Denotes σ (absSelect opt op1 (.constant ⟨w, 0⟩) (.constant ⟨w, allOnes w⟩)
      (.constant ⟨w, intMin w⟩)) (BitVec.ofInt w |x.toInt|) := by
  have hc : ∀ y : BitVec w, Denotes σ (.constant ⟨w, y⟩) y := fun _ =>
    denotes_constant.mpr ⟨hx.typed.pos, rfl⟩
  rw [ofInt_abs]
  refine denotes_selectCreate (AndExpr.create_simplifies.value (denotes_binary.mpr
      ⟨_, _, SltExpr.create_simplifies.value (denotes_cmp.mpr ⟨w, x, _, hx, hc _, rfl⟩),
        NeExpr.create_simplifies.value (denotes_cmp.mpr ⟨w, x, _, hx, hc _, rfl⟩), ?_⟩))
    (MulExpr.create_simplifies.value (denotes_binary.mpr ⟨x, _, hx, hc _, rfl⟩)) hx
  simp [BinaryKind.apply, CmpKind.apply, BitVec.slt, bne]
  rfl

/-- What a call of `abs` leaves: the absolute value, where the least integer has
itself, or an error if the least integer is a poison value and the operand is it. -/
def AbsExact (op poison : Expr) (w : Nat) : String ⊕ Expr → Prop
  | .inl _ => poison = .const 1 1 ∧ ∀ {σ} {x : BitVec w}, Denotes σ op x → x = intMin w
  | .inr e => ∀ {σ} {x : BitVec w}, Denotes σ op x → Denotes σ e (BitVec.ofInt w |x.toInt|)

theorem abs_exact (hle : w ≤ 64) (h1 : Typed op1 w) (hp : Typed poison 1) :
    ∃ r, abs opt op1 poison = .ok r ∧ AbsExact op1 poison w r := by
  have hzero : ConstantExpr.create 0 w = .ok (.constant ⟨w, 0⟩) := by
    simpa using ConstantExpr.create_toNat (0 : BitVec w)
  have hc : ∀ σ, Denotes σ (.constant ⟨w, intMin w⟩) (intMin w) := fun _ =>
    denotes_constant.mpr ⟨h1.pos, rfl⟩
  have hsmin : Typed (EqExpr.create opt op1 (.constant ⟨w, intMin w⟩)) 1 :=
    EqExpr.create_simplifies.typed (σ := .zero) (typed_cmp.mpr ⟨rfl, w, h1, (hc .zero).typed⟩)
  obtain ⟨b, hb⟩ := Expr.isTrue_excludes.total hp
  obtain ⟨b', hb'⟩ := Expr.isTrue_excludes.total hsmin
  unfold abs
  rw [h1.getWidth_eq, hp.getWidth_eq, Abort.assert_ok rfl]
  simp only [bind, Except.bind, getZExtValue_eq hle, ConstantExpr.create_toNat, hzero, hb, hb']
  cases b with
  | false => exact ⟨_, rfl, absSelect_denotes⟩
  | true =>
    cases b' with
    | false => exact ⟨_, rfl, absSelect_denotes⟩
    | true =>
      obtain ⟨y, hy, rfl⟩ := Expr.isTrue_excludes.eq hb
      obtain ⟨y', hy', heq⟩ := Expr.isTrue_excludes.eq hb'
      have hone : ∀ y : BitVec 1, y ≠ 0 → y = 1 := by decide
      obtain rfl := hone y hy
      obtain rfl := hone y' hy'
      exact ⟨_, rfl, rfl, fun hx => (isTrue_iff_eq heq hx (hc _)).mp rfl⟩

/-- Beyond 64 bits minus one is not a 64-bit number. -/
theorem abs_aborts (hlt : 64 < w) (h1 : Typed op1 w) (hp : Typed poison 1) :
    abs opt op1 poison = .error (.assertion "Too many bits for uint64_t") := by
  have hbig : ¬ (allOnes w).toNat < 2 ^ 64 := by
    have : 2 ^ 65 ≤ 2 ^ w := Nat.pow_le_pow_right two_pos hlt
    rw [toNat_allOnes]
    omega
  have hno : getZExtValue ⟨w, allOnes w⟩ = .error _ :=
    congrArg (Except.map fun _ => (allOnes w).toNat) (Abort.assert_error hbig)
  unfold abs
  rw [h1.getWidth_eq, hp.getWidth_eq, Abort.assert_ok rfl]
  simp only [bind, Except.bind, hno]

/-- Funnel shifts, minima and maxima at every width, and absolute values just up to
64 bits. -/
theorem intrinsics_exact_iff (opt : Bool) (h1 : Typed op1 w) (h2 : Typed op2 w)
    (h3 : Typed op3 w) (hp : Typed poison 1) :
    (∀ f : FunnelShift, ∃ e, funnelShift opt f op1 op2 op3 = .ok e ∧
      f.Exact w op1 op2 op3 e) ∧
    (∀ (f : MinMax) {σ} {x y : BitVec w}, Denotes σ op1 x → Denotes σ op2 y →
      Denotes σ (minMax opt f op1 op2) (f.value x y)) ∧
    ((∃ r, abs opt op1 poison = .ok r ∧ AbsExact op1 poison w r) ↔ w ≤ 64) := by
  refine ⟨fun f => funnelShift_exact f h1 h2 h3, fun f => minMax_exact f, ?_,
    fun hle => abs_exact hle h1 hp⟩
  rintro ⟨r, hr, -⟩
  by_contra hlt
  rw [abs_aborts (not_le.mp hlt) h1 hp] at hr
  cases hr

theorem intrinsics_exact_byte : Typed (.const 5 8) 8 ∧
    ∃ r, abs true (.const 5 8) (.const 0 1) = .ok r ∧
      AbsExact (.const 5 8) (.const 0 1) 8 r :=
  have h : Typed (.const 5 8) 8 := by decide
  ⟨h, (intrinsics_exact_iff true h h h (by decide)).2.2.mpr (by decide)⟩

theorem abs_of_five_aborts : abs true (.const 5 128) (.const 0 1) =
    .error (.assertion "Too many bits for uint64_t") := rfl

end Executor

end VitalSE
