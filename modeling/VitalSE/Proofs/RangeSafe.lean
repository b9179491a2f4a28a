import VitalSE.Proofs.CreateSound
import VitalSE.Proofs.RangeSound

/-!
# When the range of an expression is evaluated

The assertions of the ranges are that the operands of the bitwise operators are
not empty, and that the signed bounds have widths they can represent. The range
of an `evaluable` expression is computed without a failed assertion.
-/

namespace VitalSE

open ValueRange ExprRangeEvaluator

variable {w : Nat} {x y : BitVec w} {a b : ValueRange}

namespace ValueRange

variable {r : ValueRange}

/-! ## Operations that succeed -/

theorem covers_byte (x : BitVec 8) : (⟨0, 255⟩ : ValueRange).Covers x :=
  ⟨Nat.zero_le _, Nat.le_of_lt_succ x.isLt, by decide⟩

theorem maxValueOfNBits_total {n : Nat} (h : n ≤ 64) : ∃ v, Bits64.maxValueOfNBits n = .ok v := by
  unfold Bits64.maxValueOfNBits
  rw [if_neg (by omega)]
  split
  · exact ⟨_, rfl⟩
  · exact ⟨_, rfl⟩

section

variable {u : BitVec 64} (hu : a.Covers u)

include hu

theorem Covers.extract {lo hi : Nat} (hlo : lo < 64) (hhi : hi - lo ≤ 64) :
    ∃ r, a.extract lo hi = .ok r ∧ r.Covers (u >>> lo &&& BitVec.ofNat 64 (2 ^ (hi - lo) - 1)) := by
  obtain ⟨v, hv⟩ := maxValueOfNBits_total hhi
  have hs : (⟨a.m_min >>> lo, a.m_max >>> lo⟩ : ValueRange).Covers (u >>> lo) := by
    refine ⟨?_, ?_, BitVec.isLt _⟩ <;>
      rw [BitVec.toNat_ushiftRight, BitVec.toNat_ushiftRight, Nat.shiftRight_eq_div_pow,
        Nat.shiftRight_eq_div_pow]
    · exact Nat.div_le_div_right hu.lower
    · exact Nat.div_le_div_right hu.upper
  rw [← maxValueOfNBits_eq hv, BitVec.ofNat_toNat, BitVec.setWidth_eq]
  obtain ⟨r', hr', hcov⟩ := hs.binaryAnd (covers_fixed (v := v) rfl)
  refine ⟨r', ?_, hcov⟩
  simp only [ValueRange.extract, binaryShiftRight, if_neg (Nat.not_le.mpr hlo), hv, bind,
    Except.bind, pure, Except.pure, hr']

theorem Covers.concat_word {v : BitVec 64} {n : Nat} (hv : b.Covers v) (hn : n < 64)
    (hfit : a.m_max.toNat * 2 ^ n < 2 ^ 64) :
    ∃ r, a.concat b n = .ok r ∧ r.Covers (u <<< n ||| v) := by
  have hshift {p : BitVec 64} (hp : p.toNat ≤ a.m_max.toNat) :
      (p <<< n).toNat = p.toNat * 2 ^ n := by
    rw [BitVec.toNat_shiftLeft, Nat.shiftLeft_eq]
    exact Nat.mod_eq_of_lt ((Nat.mul_le_mul_right _ hp).trans_lt hfit)
  have hs : (⟨a.m_min <<< n, a.m_max <<< n⟩ : ValueRange).Covers (u <<< n) := by
    refine ⟨?_, ?_, BitVec.isLt _⟩ <;> dsimp only <;> rw [hshift hu.upper]
    · rw [hshift (hu.lower.trans hu.upper)]
      exact Nat.mul_le_mul_right _ hu.lower
    · rw [hshift le_rfl]
      exact Nat.mul_le_mul_right _ hu.upper
  rw [ValueRange.concat, binaryShiftLeft, if_neg (Nat.not_le.mpr hn)]
  exact hs.binaryOr hv

end

/-- Two scans give the ends of the values of an operator on two ranges. -/
def Ends (op : BitVec 64 → BitVec 64 → BitVec 64)
    (lo hi : BitVec 64 → BitVec 64 → BitVec 64 → BitVec 64 → BitVec 64) (a b : ValueRange) :
    Prop :=
  IsLeast (BitVec.Values op a.m_min a.m_max b.m_min b.m_max)
      (lo a.m_min a.m_max b.m_min b.m_max) ∧
    IsGreatest (BitVec.Values op a.m_min a.m_max b.m_min b.m_max)
      (hi a.m_min a.m_max b.m_min b.m_max)

/-- The operation succeeds with a range that has the value. -/
def Encloses (m : Except Abort ValueRange) (v : BitVec 64) : Prop :=
  ∃ r, m = .ok r ∧ r.Covers v

/-- The scans are exact, and the operations that use them enclose all results. -/
theorem scans_exact_and_enclose (a b : ValueRange) (ha : a.isEmpty = false)
    (hb : b.isEmpty = false) :
    Ends (· ||| ·) minOR maxOR a b ∧ Ends (· &&& ·) minAND maxAND a b ∧
    ∀ x y : BitVec 64, a.Covers x → b.Covers y →
      Encloses (a.binaryAnd b) (x &&& y) ∧ Encloses (a.binaryOr b) (x ||| y) ∧
      Encloses (a.binaryXor b) (x ^^^ y) ∧
      (∀ lo hi, lo < 64 → lo ≤ hi → hi - lo ≤ 64 → Encloses (a.extract lo hi)
        (x >>> lo &&& BitVec.ofNat 64 (2 ^ (hi - lo) - 1))) ∧
      ∀ n < 64, a.m_max.toNat * 2 ^ n < 2 ^ 64 →
        Encloses (a.concat b n) (x <<< n ||| y) := by
  have hle {r : ValueRange} (h : r.isEmpty = false) : r.m_min ≤ r.m_max := by
    simpa [isEmpty] using h
  refine ⟨⟨BitVec.isLeast_minOr (hle ha) (hle hb), BitVec.isGreatest_maxOr (hle ha) (hle hb)⟩,
    ⟨BitVec.isLeast_minAnd (hle ha) (hle hb), BitVec.isGreatest_maxAnd (hle ha) (hle hb)⟩, ?_⟩
  intro x y hx hy
  exact ⟨hx.binaryAnd hy, hx.binaryOr hy, hx.binaryXor hy,
    fun _ _ hlo _ hhi => hx.extract hlo hhi, fun _ hn hfit => hx.concat_word hy hn hfit⟩

theorem scans_exact_and_enclose_bytes :
    Encloses ((⟨1, 2⟩ : ValueRange).concat ⟨0, 255⟩ 8) 0x1ff :=
  ((scans_exact_and_enclose ⟨1, 2⟩ ⟨0, 255⟩ (by decide) (by decide)).2.2 1 255
    ⟨by decide, by decide, by decide⟩ ⟨by decide, by decide, by decide⟩).2.2.2.2 8
    (by decide) (by decide)

/-- The upper end loses its only bit, and the range that is left is empty. -/
theorem concat_asserts : (⟨1, 2 ^ 56⟩ : ValueRange).concat (fixed 0) 8 =
    .error (.assertion "XXX") := by
  decide

theorem full_total (h : w ≤ 64) (x : BitVec w) : ∃ r, full w = .ok r ∧ r.Covers x := by
  obtain ⟨v, hv⟩ := maxValueOfNBits_total h
  have hfull : full w = .ok ⟨0, v⟩ := by
    simp only [full, hv]
    rfl
  exact ⟨_, hfull, full_covers hfull x⟩

section

variable (hx : r.Covers x) (h2 : 2 ≤ w) (h6 : w < 64)

include hx h2 h6

theorem Covers.checkSigned_total : r.checkSigned w = .ok () := by
  have hle := hx.lower.trans hx.upper
  have hfits := hx.fits
  have hzero : ∀ v : BitVec 64, v.toNat < 2 ^ w → v >>> w = 0 := by
    intro v hv
    apply BitVec.eq_of_toNat_eq
    rw [BitVec.toNat_ushiftRight, Nat.shiftRight_eq_div_pow]
    exact Nat.div_eq_of_lt hv
  unfold checkSigned
  rw [if_neg (by simp; omega), if_neg (by omega),
    if_neg (by simp [hzero _ hfits, hzero _ (hle.trans_lt hfits)])]
  rfl

theorem Covers.minSigned_total : ∃ n, r.minSigned w = .ok n := by
  simp only [minSigned, hx.checkSigned_total h2 h6, bind, Except.bind]
  split
  · exact ⟨_, rfl⟩
  · exact ⟨_, rfl⟩

theorem Covers.maxSigned_total : ∃ n, r.maxSigned w = .ok n := by
  simp only [maxSigned, hx.checkSigned_total h2 h6, bind, Except.bind]
  split
  · exact ⟨_, rfl⟩
  · exact ⟨_, rfl⟩

end

theorem decided_total (isTrue isFalse : Bool) :
    ∃ r, decided isTrue isFalse = .ok r ∧ ∃ x : BitVec 1, r.Covers x := by
  unfold decided
  split
  · exact ⟨_, rfl, 1, covers_fixed rfl⟩
  split
  · exact ⟨_, rfl, 0, covers_fixed rfl⟩
  · obtain ⟨r, hr, hx⟩ := full_total (w := 1) (by decide) 0
    exact ⟨r, hr, 0, hx⟩

end ValueRange

/-! ## Evaluable expressions -/

/-- The comparisons that ranges of `w` bits decide without failure. -/
def CmpKind.evaluable (w : Nat) : CmpKind → Bool
  | .eq | .ult | .ule => true
  | .slt | .sle => 2 ≤ w && w < 64
  | .ne | .ugt | .uge | .sgt | .sge => false

/-- The range of the node is computed without a failed assertion from ranges of
the operands. -/
def Expr.computes : Expr → Bool
  | .concat left right =>
    left.getWidth ≤ 56 && 8 ≤ right.getWidth || whenOk (·.mustBe 0) (evaluate left)
  | .binary kind left _ =>
    match kind with
    | .and | .or | .xor => true
    | _ => left.getWidth ≤ 64
  | .cmp kind left _ => kind.evaluable left.getWidth
  | .notOptimized src => src.getWidth ≤ 64
  | .extract _ _ width => width ≤ 64
  | .zext _ width => width ≤ 64
  | .sext _ width => width ≤ 64
  | .not expr => expr.getWidth ≤ 64
  | _ => true

/-- The range of the expression is evaluated without a failed assertion. -/
def Expr.evaluable (e : Expr) : Bool :=
  e.visits Expr.computes false

namespace ExprRangeEvaluator

theorem compare_total {k : CmpKind} (hk : k.evaluable w = true) (hx : a.Covers x)
    (hy : b.Covers y) : ∃ r, compare k w a b = .ok r ∧ ∃ z : BitVec 1, r.Covers z := by
  cases k
  case eq => exact decided_total _ _
  case ult | ule =>
    simp only [compare, hx.min_eq, hx.max_eq, hy.min_eq, hy.max_eq, bind, Except.bind]
    exact decided_total _ _
  case slt | sle =>
    simp only [CmpKind.evaluable, Bool.and_eq_true, decide_eq_true_eq] at hk
    obtain ⟨_, h1⟩ := hx.maxSigned_total hk.1 hk.2
    obtain ⟨_, h2⟩ := hy.minSigned_total hk.1 hk.2
    obtain ⟨_, h3⟩ := hy.maxSigned_total hk.1 hk.2
    obtain ⟨_, h4⟩ := hx.minSigned_total hk.1 hk.2
    simp only [compare, h1, h2, h3, h4, bind, Except.bind]
    exact decided_total _ _
  all_goals cases hk

theorem getInitialReadRange_total (root : Array) (i : ValueRange) :
    ∃ x : BitVec 8, (getInitialReadRange root i).Covers x := by
  unfold getInitialReadRange
  split
  · refine ⟨root.constantValues.getD i.m_min.toNat 0, covers_fixed ?_⟩
    rw [BitVec.toNat_setWidth]
    exact Nat.mod_eq_of_lt ((BitVec.isLt _).trans (by decide))
  · exact ⟨0, covers_byte 0⟩

theorem ofConstant_total (value : APInt) :
    ∃ x : BitVec value.width, (ofConstant value).Covers x := by
  have hlt := value.bits.isLt
  refine ⟨BitVec.ofNat _ (Min.min value.toNat (2 ^ 64 - 1)), covers_fixed ?_⟩
  have hle : Min.min value.toNat (2 ^ 64 - 1) < 2 ^ value.width :=
    (Nat.min_le_left _ _).trans_lt hlt
  rw [ConstantExpr.getLimitedValue, BitVec.toNat_ofNat, BitVec.toNat_ofNat, Nat.mod_eq_of_lt hle]
  omega

theorem exists_covers {ε : Type} {m : Except ε ValueRange} (h : ∃ r, m = .ok r ∧ r.Covers x) :
    ∃ r, m = .ok r ∧ ∃ x : BitVec w, r.Covers x :=
  h.imp fun _ h => ⟨h.1, x, h.2⟩

theorem full_exists (h : w ≤ 64) : ∃ r, full w = .ok r ∧ ∃ x : BitVec w, r.Covers x :=
  exists_covers (full_total h 0)

mutual

theorem evaluate_total : ∀ {e : Expr} {w : Nat}, Typed e w → e.evaluable = true →
    ∃ r, evaluate e = .ok r ∧ ∃ x : BitVec w, r.Covers x
  | .constant value, w, ht, _ => by
    obtain ⟨_, rfl⟩ := typed_constant.mp ht
    exact ⟨_, rfl, ofConstant_total value⟩
  | .read root head index, w, ht, he => by
    obtain ⟨rfl, hhead, hindex, -⟩ := typed_read.mp ht
    obtain ⟨hie, hhe⟩ := Bool.and_eq_true_iff.mp he
    obtain ⟨i, hi, j, hj⟩ := evaluate_total hindex hie
    have hhe := of_whenOk hhe hi
    obtain ⟨r, hr, hx⟩ := evalRead_total root i hhead hhe
      (show empty.m_max.toNat < 2 ^ 8 by decide)
    exact ⟨r, by simp only [evaluate, hi, bind, Except.bind, hr], hx⟩
  | .select c t f, w, ht, he => by
    obtain ⟨hc, ht, hf⟩ := typed_select.mp ht
    obtain ⟨hce, he⟩ := Bool.and_eq_true_iff.mp he
    obtain ⟨rc, hrc, _⟩ := evaluate_total hc hce
    have he := of_whenOk he hrc
    simp only [evaluate, hrc, bind, Except.bind]
    split_ifs at he ⊢
    · exact evaluate_total ht he
    · exact evaluate_total hf he
    · obtain ⟨hte, hfe⟩ := Bool.and_eq_true_iff.mp he
      obtain ⟨rt, hrt, x, hx⟩ := evaluate_total ht hte
      obtain ⟨rf, hrf, y, hy⟩ := evaluate_total hf hfe
      rw [hrt, hrf]
      exact ⟨_, rfl, x, hx.union_left hy.fits⟩
  | .concat l r, w, ht, he => by
    obtain ⟨u, v, hl, hr, rfl⟩ := typed_concat.mp ht
    obtain ⟨he, hcomputes⟩ := Bool.and_eq_true_iff.mp he
    obtain ⟨hle, hre⟩ := Bool.and_eq_true_iff.mp he
    obtain ⟨rl, hrl, x, hx⟩ := evaluate_total hl hle
    obtain ⟨rr, hrr, y, hy⟩ := evaluate_total hr hre
    rcases Bool.or_eq_true_iff.mp hcomputes with hfits | hzero
    · simp only [Bool.and_eq_true, decide_eq_true_eq, hl.getWidth_eq, hr.getWidth_eq] at hfits
      obtain ⟨rs, hrs, hx⟩ := hx.zero_concat
      simp only [evaluate, hrl, hrs, hrr, bind, Except.bind]
      exact exists_covers (hx.concat hy hfits.1 hfits.2)
    · have hzero := of_whenOk hzero hrl
      obtain rfl := eq_fixed_of_mustBe hzero
      obtain ⟨r', hr', hy⟩ := hy.zero_concat
      refine ⟨r', ?_, _, hy.zero_append (x := (0 : BitVec u)) rfl⟩
      simp only [evaluate, hrl, hrr, bind, Except.bind]
      exact hr'
  | .binary k l r, w, ht, he => by
    obtain ⟨hl, hr⟩ := typed_binary.mp ht
    have hw := hl.getWidth_eq
    obtain ⟨he, hwe⟩ := Bool.and_eq_true_iff.mp he
    cases k
    case shl | lshr | ashr =>
      rw [evaluate, hw]
      exact full_exists (hw ▸ of_decide_eq_true hwe)
    case and | or | xor =>
      obtain ⟨hle, hre⟩ := Bool.and_eq_true_iff.mp he
      obtain ⟨rl, hrl, x, hx⟩ := evaluate_total hl hle
      obtain ⟨rr, hrr, y, hy⟩ := evaluate_total hr hre
      simp only [evaluate, hrl, hrr, bind, Except.bind]
      first
        | exact exists_covers (hx.binaryAnd hy)
        | exact exists_covers (hx.binaryOr hy)
        | exact exists_covers (hx.binaryXor hy)
    all_goals
      obtain ⟨hle, hre⟩ := Bool.and_eq_true_iff.mp he
      obtain ⟨rl, hrl, _⟩ := evaluate_total hl hle
      obtain ⟨rr, hrr, _⟩ := evaluate_total hr hre
      simp only [evaluate, hrl, hrr, bind, Except.bind, hw]
      exact full_exists (hw ▸ of_decide_eq_true hwe)
  | .cmp k l r, w, ht, he => by
    obtain ⟨rfl, u, hl, hr⟩ := typed_cmp.mp ht
    obtain ⟨he, hk⟩ := Bool.and_eq_true_iff.mp he
    obtain ⟨hle, hre⟩ := Bool.and_eq_true_iff.mp he
    obtain ⟨rl, hrl, x, hx⟩ := evaluate_total hl hle
    obtain ⟨rr, hrr, y, hy⟩ := evaluate_total hr hre
    rw [Expr.computes, hl.getWidth_eq] at hk
    simp only [evaluate, hrl, hrr, hl.getWidth_eq, bind, Except.bind]
    exact compare_total hk hx hy
  | .extract _ _ n, w, ht, he | .zext _ n, w, ht, he | .sext _ n, w, ht, he => by
    obtain rfl : n = w := ht.getWidth_eq
    exact full_exists (of_decide_eq_true he)
  | .notOptimized e, w, ht, he | .not e, w, ht, he => by
    have hw : e.getWidth = w := ht.getWidth_eq
    rw [evaluate, hw]
    exact full_exists (hw ▸ of_decide_eq_true he)

theorem evalRead_total (root : Array) (i : ValueRange) : ∀ {head : UpdateNode}
    {res : ValueRange}, head.wellTyped = true →
    head.visits Expr.computes false i res = true → res.m_max.toNat < 2 ^ 8 →
    ∃ r, evalRead root i head res = .ok r ∧ ∃ x : BitVec 8, r.Covers x
  | .null, res, _, _, hres => by
    obtain ⟨x, hx⟩ := getInitialReadRange_total root i
    exact ⟨_, rfl, x, hx.union_right hres⟩
  | .node next index value, res, ht, he, hres => by
    obtain ⟨hnext, hindex, hvalue⟩ := wellTyped_node.mp ht
    obtain ⟨hie, he⟩ := Bool.and_eq_true_iff.mp he
    obtain ⟨ui, hui, _⟩ := evaluate_total hindex hie
    have he := of_whenOk he hui
    simp only [evalRead, hui, bind, Except.bind]
    split_ifs at he ⊢
    · obtain ⟨rv, hrv, x, hx⟩ := evaluate_total hvalue he
      rw [hrv]
      exact ⟨_, rfl, x, hx.union_right hres⟩
    · obtain ⟨hve, he⟩ := Bool.and_eq_true_iff.mp he
      obtain ⟨rv, hrv, x, hx⟩ := evaluate_total hvalue hve
      have hfull : ∃ full, (res.setUnion rv).isFullRange 8 = .ok full := ⟨_, rfl⟩
      obtain ⟨full, hfull⟩ := hfull
      have he := of_whenOk he hrv
      have he := of_whenOk he hfull
      simp only [hrv, hfull]
      split
      · exact ⟨_, rfl, x, hx.union_right hres⟩
      · next htrue =>
        refine evalRead_total root i hnext ((Bool.or_eq_true_iff.mp he).resolve_left htrue) ?_
        rw [setUnion_max]
        exact max_lt hres hx.fits
    · exact evalRead_total root i hnext he hres

end

/-! ## Enclosures -/

/-- The evaluator returns a range that has the value of the expression under
every valuation, where in the parts that are evaluated signed comparisons are of
2 to 63 bits and full ranges of at most 64, and in those whose ranges are used
the right operands of concatenations are bytes. -/
theorem evaluate_encloses (e : Expr) (w : Nat) (ht : Typed e w)
    (hevaluable : e.evaluable = true) (henclosed : e.enclosed = true) :
    ∃ r, evaluate e = .ok r ∧ ∀ σ (x : BitVec w), Denotes σ e x →
      r.m_min.toNat ≤ x.toNat ∧ x.toNat ≤ r.m_max.toNat := by
  obtain ⟨r, hr, -⟩ := evaluate_total ht hevaluable
  refine ⟨r, hr, fun σ x hx => ?_⟩
  have hcovers := evaluate_covers henclosed hx hr
  exact ⟨hcovers.lower, hcovers.upper⟩

/-- A byte appended to two, and on a branch that is never taken two bytes
appended to one. -/
theorem evaluate_encloses_bytes :
    let read (i : Nat) := Expr.read Array.four .null (Expr.const i 32)
    let e := Expr.select (.cmp .ule (read 0) (Expr.const 255 8))
      (.concat (.concat (read 0) (read 1)) (read 2))
      (.concat (read 0) (.concat (read 1) (read 2)))
    Typed e 24 ∧ e.evaluable = true ∧ e.enclosed = true ∧
      ∃ r, evaluate e = .ok r ∧ ∀ σ (x : BitVec 24), Denotes σ e x →
        r.m_min.toNat ≤ x.toNat ∧ x.toNat ≤ r.m_max.toNat :=
  ⟨⟨by decide, rfl⟩, rfl, rfl, evaluate_encloses _ 24 ⟨by decide, rfl⟩ rfl rfl⟩

/-- Two bytes appended to one have a range of two bytes. The range of a signed
comparison of words is not computed at all. -/
theorem evaluate_not_encloses :
    let read (i : Nat) := Expr.read Array.four .null (Expr.const i 32)
    let e := Expr.concat (read 0) (.concat (read 1) (read 2))
    (evaluate e = .ok ⟨0, 0xffff⟩ ∧ Denotes (fun _ _ => 1) e 0x010101#24) ∧
      evaluate (.cmp .slt (.sext (read 0) 64) (.sext (read 1) 64)) =
        .error (.undefined "shift by the width of the type") :=
  ⟨⟨by decide +kernel, ⟨by decide, rfl⟩, by decide +kernel⟩, by decide +kernel⟩

end ExprRangeEvaluator

end VitalSE
