import VitalSE.Solver.ValueRange
import VitalSE.Expr.Eval
import VitalSE.Lib.Runs

/-!
# Ranges enclose values

`Covers r x` is what a range of a `w`-bit expression has to satisfy: the value
`x` lies in it, and it has no value of more than `w` bits. The second half is
needed where ranges are shifted. There is one lemma for each operation on
ranges, and the evaluator is sound on the expressions for which its treatment
of concatenations and constants is: those are `enclosed`.
-/

namespace VitalSE

open BitVec
open Except (bind_eq_ok)

namespace ValueRange

/-- The word is in the range, which has no more bits than it. -/
structure Covers (r : ValueRange) {w : Nat} (x : BitVec w) : Prop where
  lower : r.m_min.toNat ≤ x.toNat
  upper : x.toNat ≤ r.m_max.toNat
  fits : r.m_max.toNat < 2 ^ w

variable {r a b : ValueRange} {w : Nat} {x y : BitVec w} {v : BitVec 64} {k : Nat}

theorem Covers.of_ok {m : Except Abort ValueRange} (h : ∃ r, m = .ok r ∧ r.Covers x)
    (hr : m = .ok r) : r.Covers x := by
  obtain ⟨r', hr', hx⟩ := h
  cases hr'.symm.trans hr
  exact hx

section

variable (h : r.Covers x)

include h

theorem Covers.not_empty : r.isEmpty = false := by
  have := h.lower.trans h.upper
  simpa [isEmpty, lt_def] using this

/-- The word of a value that a range covers. -/
theorem Covers.word : (BitVec.ofNat 64 x.toNat).toNat = x.toNat := by
  rw [toNat_ofNat]
  exact Nat.mod_eq_of_lt (h.upper.trans_lt r.m_max.isLt)

theorem Covers.min_le : r.m_min ≤ BitVec.ofNat 64 x.toNat := by
  rw [le_def, h.word]
  exact h.lower

theorem Covers.le_max : BitVec.ofNat 64 x.toNat ≤ r.m_max := by
  rw [le_def, h.word]
  exact h.upper

/-- A fixed range covers only its value. -/
theorem Covers.eq_of_fixed (hr : r.isFixed = true) : x.toNat = r.m_min.toNat := by
  have heq : r.m_min = r.m_max := by simpa [isFixed] using hr
  have hl := h.lower
  have hu := h.upper
  rw [← heq] at hu
  omega

end

theorem covers_fixed (h : v.toNat = x.toNat) : (fixed v).Covers x :=
  ⟨h.le, h.ge, h.trans_lt x.isLt⟩

/-! ## All values of a width -/

theorem maxValueOfNBits_eq {n : Nat} (h : Bits64.maxValueOfNBits n = .ok v) :
    v.toNat = 2 ^ n - 1 := by
  unfold Bits64.maxValueOfNBits at h
  split at h
  · cases h
  next hle =>
  split at h
  · next h0 =>
    cases h
    rw [h0]
    rfl
  · cases h
    have hall : ∀ n ≤ 64, (BitVec.allOnes 64 >>> (64 - n)).toNat = 2 ^ n - 1 := by decide
    exact hall n (Nat.le_of_not_lt hle)

theorem full_eq {n : Nat} (h : full n = .ok r) : r.m_min.toNat = 0 ∧ r.m_max.toNat = 2 ^ n - 1 := by
  obtain ⟨v, hv, hr⟩ := bind_eq_ok.mp h
  cases hr
  exact ⟨rfl, maxValueOfNBits_eq hv⟩

theorem full_covers (h : full w = .ok r) (x : BitVec w) : r.Covers x := by
  obtain ⟨hmin, hmax⟩ := full_eq h
  have hlt := x.isLt
  exact ⟨by omega, by omega, by omega⟩

/-! ## Unions and intersections -/

theorem setUnion_min : (a.setUnion b).m_min.toNat = Min.min a.m_min.toNat b.m_min.toNat := by
  simp only [setUnion, lt_def]
  split <;> omega

theorem setUnion_max : (a.setUnion b).m_max.toNat = Max.max a.m_max.toNat b.m_max.toNat := by
  simp only [setUnion, lt_def]
  split <;> omega

theorem Covers.union_left (h : a.Covers x) (hb : b.m_max.toNat < 2 ^ w) :
    (a.setUnion b).Covers x := by
  constructor
  · rw [setUnion_min]
    exact (min_le_left ..).trans h.lower
  · rw [setUnion_max]
    exact h.upper.trans (le_max_left ..)
  · rw [setUnion_max]
    exact max_lt h.fits hb

theorem Covers.union_right (h : b.Covers x) (ha : a.m_max.toNat < 2 ^ w) :
    (a.setUnion b).Covers x := by
  constructor
  · rw [setUnion_min]
    exact (min_le_right ..).trans h.lower
  · rw [setUnion_max]
    exact h.upper.trans (le_max_right ..)
  · rw [setUnion_max]
    exact max_lt ha h.fits

theorem Covers.mayEqual (hx : a.Covers x) (hy : b.Covers x) : a.mayEqual b = true := by
  have h1 := hx.lower.trans hx.upper
  have h2 := hx.lower.trans hy.upper
  have h3 := hy.lower.trans hx.upper
  have h4 := hy.lower.trans hy.upper
  simp only [ValueRange.mayEqual, intersects, setIntersection, isEmpty, lt_def,
    Bool.not_eq_true', decide_eq_false_iff_not, Nat.not_lt]
  split <;> split <;> omega

theorem mustBe_iff : a.mustBe v = true ↔ a.isFixed = true ∧ a.m_min = v := by
  simp [mustBe, isFixed]

theorem eq_fixed_of_mustBe (h : a.mustBe v = true) : a = fixed v := by
  obtain ⟨hfix, rfl⟩ := mustBe_iff.mp h
  obtain ⟨min, max⟩ := a
  have heq : min = max := by simpa [isFixed] using hfix
  rw [fixed, ← heq]

/-! ## Bitwise operators -/

theorem lt_pow_and {u : BitVec 64} (hu : u.toNat < 2 ^ w) : (u &&& v).toNat < 2 ^ w := by
  rw [toNat_and]
  exact Nat.and_le_left.trans_lt hu

theorem maxAND_lt {p q s t : BitVec 64} (hq : q.toNat < 2 ^ w)
    (ht : t.toNat < 2 ^ w) : (maxAND p q s t).toNat < 2 ^ w := by
  -- Whatever the scan stops at is masked by one of the upper ends.
  have scan : ∀ k, (BitVec.maxAnd p q s t k).toNat < 2 ^ w := by
    intro k
    induction k with
    | zero => exact lt_pow_and hq
    | succ k ih =>
      simp only [BitVec.maxAnd]
      split
      · split
        · rw [BitVec.and_comm]
          exact lt_pow_and ht
        · exact ih
      split
      · split
        · exact lt_pow_and hq
        · exact ih
      · exact ih
  exact scan 64

theorem bit_lt (hv : v.toNat < 2 ^ w) (hk : v.getLsbD k = true) : k < w :=
  (Nat.pow_lt_pow_iff_right (by decide)).mp ((Nat.ge_two_pow_of_testBit hk).trans_lt hv)

theorem lower_lt (hv : v.toNat < 2 ^ w) (hk : v.getLsbD k = true) : (lower k v).toNat < 2 ^ w := by
  have hk64 := BitVec.lt_of_getLsbD hk
  have hkw := bit_lt hv hk
  refine Nat.lt_pow_two_of_testBit _ fun i hi => ?_
  rw [testBit_toNat, getLsbD_lower hk64, if_neg (by omega),
    if_neg (by omega), ← testBit_toNat]
  exact Nat.testBit_lt_two_pow (hv.trans_le (Nat.pow_le_pow_right (by decide) hi))

theorem lt_pow_or {u : BitVec 64} (hu : u.toNat < 2 ^ w) (hv : v.toNat < 2 ^ w) :
    (u ||| v).toNat < 2 ^ w := by
  rw [toNat_or]
  exact Nat.or_lt_two_pow hu hv

theorem maxOR_lt {p q s t : BitVec 64} (hq : q.toNat < 2 ^ w)
    (ht : t.toNat < 2 ^ w) : (maxOR p q s t).toNat < 2 ^ w := by
  have scan : ∀ k, k ≤ 64 → (BitVec.maxOr p q s t k).toNat < 2 ^ w := by
    intro k
    induction k with
    | zero => exact fun _ => lt_pow_or hq ht
    | succ k ih =>
      intro hk
      have ih := ih (by omega)
      simp only [BitVec.maxOr, and_twoPow_ne_zero hk, getLsbD_and, Bool.and_eq_true]
      split
      · next hqt =>
        rw [sub_twoPow_or hqt.1, sub_twoPow_or hqt.2]
        split
        · exact lt_pow_or (lower_lt hq hqt.1) ht
        split
        · exact lt_pow_or hq (lower_lt ht hqt.2)
        · exact ih
      · exact ih
  exact scan 64 le_rfl

theorem Covers.of_word {lo hi : BitVec 64} (hv : v.toNat = x.toNat) (hlo : lo ≤ v)
    (hhi : v ≤ hi) (hfits : hi.toNat < 2 ^ w) : Covers ⟨lo, hi⟩ x :=
  ⟨hv ▸ le_def.mp hlo, hv ▸ le_def.mp hhi, hfits⟩

/-- The words up to a power of two, and one less than the next. -/
theorem toNat_twoPow_double (hk : k < 64) : (twoPow 64 k <<< 1 - 1).toNat = 2 ^ (k + 1) - 1 := by
  revert k
  decide

/-- A range that goes up to zero only has that value. -/
theorem Covers.isFixed_of_max_zero (hx : a.Covers x) (h : a.m_max = 0) : a.isFixed = true := by
  have hle := hx.lower.trans hx.upper
  rw [h] at hle
  have hmin : a.m_min = 0 := eq_of_toNat_eq (Nat.le_zero.mp hle)
  simp [isFixed, h, hmin]

section

variable (hx : a.Covers x) (hy : b.Covers y)

include hx hy

theorem Covers.eq_of_mustEqual (h : a.mustEqual b = true) : x = y := by
  obtain ⟨⟨ha, hb⟩, heq⟩ : (a.isFixed = true ∧ b.isFixed = true) ∧
      a.m_min = b.m_min := by
    simpa [ValueRange.mustEqual] using h
  rw [toNat_eq, hx.eq_of_fixed ha, hy.eq_of_fixed hb, heq]

/-- Two ranges that are fixed give the operator on their values. -/
theorem Covers.fixed_pair (h : (a.isFixed && b.isFixed) = true) :
    a.m_min.toNat = x.toNat ∧ b.m_min.toNat = y.toNat := by
  obtain ⟨ha, hb⟩ := Bool.and_eq_true_iff.mp h
  exact ⟨(hx.eq_of_fixed ha).symm, (hy.eq_of_fixed hb).symm⟩

theorem Covers.binaryAnd : ∃ r, a.binaryAnd b = .ok r ∧ r.Covers (x &&& y) := by
  unfold ValueRange.binaryAnd
  rw [if_neg (by simp [hx.not_empty, hy.not_empty])]
  split
  · next hfix =>
    obtain ⟨h1, h2⟩ := hx.fixed_pair hy hfix
    exact ⟨_, rfl, covers_fixed (by rw [toNat_and, toNat_and, h1, h2])⟩
  · refine ⟨_, rfl, .of_word ?_ (BitVec.minAnd_le hx.min_le hx.le_max hy.min_le hy.le_max)
      (BitVec.le_maxAnd hx.min_le hx.le_max hy.min_le hy.le_max)
      (maxAND_lt hx.fits hy.fits)⟩
    rw [toNat_and, hx.word, hy.word, toNat_and]

theorem Covers.binaryOr : ∃ r, a.binaryOr b = .ok r ∧ r.Covers (x ||| y) := by
  unfold ValueRange.binaryOr
  rw [if_neg (by simp [hx.not_empty, hy.not_empty])]
  split
  · next hfix =>
    obtain ⟨h1, h2⟩ := hx.fixed_pair hy hfix
    exact ⟨_, rfl, covers_fixed (by rw [toNat_or, toNat_or, h1, h2])⟩
  · refine ⟨_, rfl, .of_word ?_ (BitVec.minOr_le hx.min_le hx.le_max hy.min_le hy.le_max)
      (BitVec.le_maxOr hx.min_le hx.le_max hy.min_le hy.le_max)
      (maxOR_lt hx.fits hy.fits)⟩
    rw [toNat_or, hx.word, hy.word, toNat_or]

theorem Covers.binaryXor : ∃ r, a.binaryXor b = .ok r ∧ r.Covers (x ^^^ y) := by
  unfold ValueRange.binaryXor
  split
  · next hfix =>
    obtain ⟨h1, h2⟩ := hx.fixed_pair hy hfix
    exact ⟨_, rfl, covers_fixed (by rw [toNat_xor, toNat_xor, h1, h2])⟩
  · next hfix =>
    -- Not both are zero, so there is a highest bit.
    have hne : a.m_max ||| b.m_max ≠ 0#64 := by
      intro h0
      obtain ⟨h1, h2⟩ := or_eq_zero_iff.mp h0
      exact hfix (by
        rw [hx.isFixed_of_max_zero h1, hy.isFixed_of_max_zero h2]
        rfl)
    obtain ⟨k, htop, hk, hlt⟩ := isolateTop_spec hne (i := 0) (fun i hi => by omega) le_rfl
    rw [htop]
    -- Both upper ends are below the double of it.
    have hkw := bit_lt (lt_pow_or hx.fits hy.fits) hk
    rw [toNat_or] at hlt
    have hxk : x.toNat < 2 ^ (k + 1) :=
      (hx.upper.trans Nat.left_le_or).trans_lt hlt
    have hyk : y.toNat < 2 ^ (k + 1) :=
      (hy.upper.trans Nat.right_le_or).trans_lt hlt
    have hxor := Nat.xor_lt_two_pow hxk hyk
    have hmax := toNat_twoPow_double (BitVec.lt_of_getLsbD hk)
    refine ⟨_, rfl, Nat.zero_le _, ?_, ?_⟩
    · rw [hmax, toNat_xor]
      omega
    · rw [hmax]
      have := Nat.pow_le_pow_right (n := 2) (by decide) (show k + 1 ≤ w from hkw)
      have := Nat.two_pow_pos (k + 1)
      omega

end

/-! ## Concatenation

The operands are eight bits apart, so only the second one may be a byte. -/

theorem Covers.shiftLeft {u : Nat} {x : BitVec u} (hx : a.Covers x) (hu : u ≤ 56) :
    (a.m_min <<< 8).toNat = a.m_min.toNat * 256 ∧ (a.m_max <<< 8).toNat = a.m_max.toNat * 256 := by
  have hpow : (2 : Nat) ^ u ≤ 2 ^ 56 := Nat.pow_le_pow_right (by decide) hu
  have hmax := hx.fits
  have hmin := hx.lower.trans hx.upper
  simp only [toNat_shiftLeft, Nat.shiftLeft_eq]
  omega

theorem Covers.concat {u v : Nat} {x : BitVec u} {y : BitVec v} (hx : a.Covers x)
    (hy : b.Covers y) (hu : u ≤ 56) (hv : 8 ≤ v) : ∃ r, a.concat b 8 = .ok r ∧
      r.Covers (x.setWidth (u + v) <<< 8 ||| y.setWidth (u + v)) := by
  obtain ⟨hmin, hmax⟩ := hx.shiftLeft hu
  have hpow : 2 ^ u * 256 ≤ 2 ^ (u + v) := by
    rw [show (256 : Nat) = 2 ^ 8 from rfl, ← Nat.pow_add]
    exact Nat.pow_le_pow_right (by decide) (by omega)
  have hpow' : 2 ^ v ≤ 2 ^ (u + v) := Nat.pow_le_pow_right (by decide) (by omega)
  have hfits := hx.fits
  have hlower := hx.lower
  have hupper := hx.upper
  have hyset : (y.setWidth (u + v)).toNat = y.toNat := by
    rw [toNat_setWidth, Nat.mod_eq_of_lt (y.isLt.trans_le hpow')]
  have hshift : (x.setWidth (u + v) <<< 8).toNat = x.toNat * 256 := by
    have hset : (x.setWidth (u + v)).toNat = x.toNat := by
      rw [toNat_setWidth, Nat.mod_eq_of_lt (by omega)]
    rw [toNat_shiftLeft, hset, Nat.shiftLeft_eq, Nat.mod_eq_of_lt (by omega)]
  have hx' : (⟨a.m_min <<< 8, a.m_max <<< 8⟩ : ValueRange).Covers
      (x.setWidth (u + v) <<< 8) := by
    constructor <;> dsimp only <;> omega
  exact hx'.binaryOr ⟨hyset ▸ hy.lower, hyset ▸ hy.upper, hy.fits.trans_le hpow'⟩

/-- The first step only appends to zero. -/
theorem Covers.zero_concat (hx : a.Covers x) : ∃ r, (fixed 0).concat a 8 = .ok r ∧ r.Covers x := by
  have h0 : (fixed 0).Covers (0 : BitVec w) := covers_fixed (by simp)
  have hor := h0.binaryOr hx
  have hzero : 0 ||| x = x := BitVec.zero_or
  rwa [hzero] at hor

theorem Covers.zero_append {u v : Nat} {x : BitVec u} {y : BitVec v} (hx : x.toNat = 0)
    (hy : a.Covers y) : a.Covers (x ++ y) := by
  have hval : (x ++ y).toNat = y.toNat := by
    rw [toNat_append, hx, Nat.zero_shiftLeft, Nat.zero_or]
  refine ⟨hval ▸ hy.lower, hval ▸ hy.upper, hy.fits.trans_le ?_⟩
  exact Nat.pow_le_pow_right (by decide) (Nat.le_add_left v u)

/-! ## Signed bounds -/

theorem checkSigned_ok (h : r.checkSigned w = .ok ()) : 2 ≤ w ∧ w < 64 := by
  unfold checkSigned at h
  split at h
  · cases h
  next hw =>
  split at h
  · cases h
  · simp only [Bool.or_eq_true, decide_eq_true_eq] at hw
    omega

/-- Half of the words of a width, as a 64-bit word. -/
theorem toNat_smallest (h : w < 64) : (twoPow 64 (w - 1)).toNat = 2 ^ (w - 1) :=
  toNat_twoPow_of_lt (by omega)

theorem two_pow_half (h : 2 ≤ w) : 2 ^ w = 2 * 2 ^ (w - 1) := by
  obtain ⟨n, rfl⟩ := Nat.exists_eq_add_of_le' h
  exact Nat.pow_succ'

theorem minSigned_le {n : Int} (hx : r.Covers x) (h : r.minSigned w = .ok n) : n ≤ x.toInt := by
  obtain ⟨_, hw, h⟩ := bind_eq_ok.mp h
  obtain ⟨hw2, hw6⟩ := checkSigned_ok hw
  have hhalf := two_pow_half hw2
  have hlower := hx.lower
  have hupper := hx.upper
  simp only [le_def, toNat_smallest hw6] at h
  split at h
  · cases h
    rw [toInt_intMin, Nat.mod_eq_of_lt (by omega)]
    exact BitVec.le_toInt x
  · next hlt =>
    cases h
    have hpow := Nat.pow_le_pow_right (n := 2) (by decide)
      (show w - 1 ≤ 62 by omega)
    rw [toInt_eq_toNat_cond, toInt_eq_toNat_cond, if_pos (by omega),
      if_pos (by omega)]
    exact_mod_cast hlower

theorem le_maxSigned {n : Int} (hx : r.Covers x) (h : r.maxSigned w = .ok n) : x.toInt ≤ n := by
  obtain ⟨_, hw, h⟩ := bind_eq_ok.mp h
  obtain ⟨hw2, hw6⟩ := checkSigned_ok hw
  have hhalf := two_pow_half hw2
  have hlower := hx.lower
  have hupper := hx.upper
  have hfits := hx.fits
  have hsmall := toNat_smallest hw6
  have hpos := Nat.two_pow_pos (w - 1)
  have hpow := Nat.pow_le_pow_right (n := 2) (by decide)
    (show w - 1 ≤ 62 by omega)
  simp only [lt_def, le_def, hsmall, Bool.and_eq_true, decide_eq_true_eq] at h
  split at h
  · cases h
    have hone : (twoPow 64 (w - 1) - 1).toNat = 2 ^ (w - 1) - 1 := by
      rw [toNat_sub, hsmall]
      show (2 ^ 64 - 1 + 2 ^ (w - 1)) % 2 ^ 64 = _
      omega
    rw [toInt_eq_toNat_cond, toInt_eq_toNat_cond, hone,
      if_pos (show 2 * (2 ^ (w - 1) - 1) < 2 ^ 64 by omega)]
    split <;> omega
  · next hsign =>
    cases h
    have hset : (r.m_max.setWidth w).toNat = r.m_max.toNat := by
      rw [toNat_setWidth, Nat.mod_eq_of_lt hfits]
    rw [toInt_eq_toNat_cond, toInt_eq_toNat_cond, hset]
    -- The ends of the range have the same sign.
    split <;> split <;> omega

/-! ## Comparisons -/

section

open ExprRangeEvaluator

theorem decided_covers {isTrue isFalse p : Bool} (h : decided isTrue isFalse = .ok r)
    (ht : isTrue = true → p = true) (hf : isFalse = true → p = false) :
    r.Covers (BitVec.ofBool p) := by
  unfold decided at h
  split at h
  · next htrue =>
    cases h
    rw [ht htrue]
    exact covers_fixed rfl
  split at h
  · next hfalse =>
    cases h
    rw [hf hfalse]
    exact covers_fixed rfl
  · exact full_covers h _

theorem Covers.min_eq (hx : r.Covers x) : r.min = .ok r.m_min := by
  unfold ValueRange.min
  rw [if_neg (by simp [hx.not_empty])]
  rfl

theorem Covers.max_eq (hx : r.Covers x) : r.max = .ok r.m_max := by
  unfold ValueRange.max
  rw [if_neg (by simp [hx.not_empty])]
  rfl

theorem compare_covers {k : CmpKind} (hx : a.Covers x) (hy : b.Covers y)
    (h : compare k w a b = .ok r) : r.Covers (BitVec.ofBool (k.apply x y)) := by
  have hxl := hx.lower
  have hxu := hx.upper
  have hyl := hy.lower
  have hyu := hy.upper
  cases k with
  | eq =>
    refine decided_covers h (fun ht => ?_) fun hf => ?_
    · exact beq_iff_eq.mpr (hx.eq_of_mustEqual hy ht)
    · by_contra hne
      have heq : x = y := by simpa [CmpKind.apply] using hne
      subst heq
      simp [hx.mayEqual hy] at hf
  | ult | ule =>
    simp only [ExprRangeEvaluator.compare, hx.min_eq, hx.max_eq, hy.min_eq, hy.max_eq, bind,
      Except.bind] at h
    refine decided_covers h (fun ht => ?_) fun hf => ?_
    · simp only [CmpKind.apply, BitVec.ult, BitVec.ule, lt_def, le_def, decide_eq_true_eq] at ht ⊢
      omega
    · simp only [CmpKind.apply, BitVec.ult, BitVec.ule, lt_def, le_def,
        decide_eq_true_eq, decide_eq_false_iff_not] at hf ⊢
      omega
  | slt | sle =>
    obtain ⟨_, h1, h⟩ := bind_eq_ok.mp h
    obtain ⟨_, h2, h⟩ := bind_eq_ok.mp h
    obtain ⟨_, h3, h⟩ := bind_eq_ok.mp h
    obtain ⟨_, h4, h⟩ := bind_eq_ok.mp h
    have h1 := le_maxSigned hx h1
    have h2 := minSigned_le hy h2
    have h3 := le_maxSigned hy h3
    have h4 := minSigned_le hx h4
    refine decided_covers h (fun ht => ?_) fun hf => ?_
    · simp only [CmpKind.apply, BitVec.slt, BitVec.sle, decide_eq_true_eq] at ht ⊢
      omega
    · simp only [CmpKind.apply, BitVec.slt, BitVec.sle, decide_eq_true_eq,
        decide_eq_false_iff_not] at hf ⊢
      omega
  | ne | ugt | uge | sgt | sge => cases h

end

end ValueRange

/-! ## The evaluator -/

section

open ExprRangeEvaluator

/-- A test of what is computed, if it is. -/
def ExprRangeEvaluator.whenOk {α : Type} (p : α → Bool) : Except Abort α → Bool
  | .ok a => p a
  | .error _ => true

theorem ExprRangeEvaluator.of_whenOk {α : Type} {p : α → Bool} {m : Except Abort α} {a : α}
    (h : whenOk p m = true) (hm : m = .ok a) : p a = true := by
  rwa [hm] at h

variable (P : Expr → Bool) (used : Bool)

mutual

/-- All nodes that the evaluator visits have `P`. The branch of a select that
its condition rules out is not visited, nor is what an update that is not read
has written. With `used`, neither are the operands that are evaluated although
the range does not depend on theirs. -/
def Expr.visits : Expr → Bool
  | .read _ head index =>
    index.visits && whenOk (fun i => head.visits i ValueRange.empty) (evaluate index)
  | .select cond trueExpr falseExpr =>
    cond.visits && whenOk (fun c =>
      if c.mustBe 1 then trueExpr.visits
      else if c.mustBe 0 then falseExpr.visits
      else trueExpr.visits && falseExpr.visits) (evaluate cond)
  | .concat left right =>
    left.visits && right.visits && P (.concat left right)
  | .binary kind left right =>
    (match kind with
      | .and | .or | .xor => left.visits && right.visits
      | .shl | .lshr | .ashr => true
      | _ => used || (left.visits && right.visits)) && P (.binary kind left right)
  | .cmp kind left right =>
    left.visits && right.visits && P (.cmp kind left right)
  | e => P e

/-- The same for the updates of a read at a position in `i`. -/
def UpdateNode.visits (i : ValueRange) : UpdateNode → ValueRange → Bool
  | .null, _ => true
  | .node next index value, res =>
    index.visits && whenOk (fun ui =>
      if ui.mustEqual i then value.visits
      else if ui.mayEqual i then
        value.visits && whenOk (fun rv =>
          -- Nothing more is looked at once any byte is possible.
          whenOk (fun full => full || next.visits i (res.setUnion rv))
            ((res.setUnion rv).isFullRange 8)) (evaluate value)
      else next.visits i res) (evaluate index)

end

/-- The range of the node has its values, if the ranges of the operands have
theirs: the value of a constant fits into 64 bits, and a concatenation appends
one byte to at most 56 bits, or anything to zero. -/
def Expr.keeps : Expr → Bool
  | .constant value => value.toNat < 2 ^ 64
  | .concat left right =>
    right.getWidth == 8 && left.getWidth ≤ 56 ||
      whenOk (·.mustBe 0) (evaluate left)
  | _ => true

end

/-- The parts of an expression whose ranges are used have ranges that enclose
their values. -/
def Expr.enclosed (e : Expr) : Bool :=
  e.visits Expr.keeps true

namespace ExprRangeEvaluator

open ValueRange

variable {σ : Valuation} {r res i : ValueRange}

theorem ofConstant_covers {w : Nat} {x : BitVec w} (h : x.toNat < 2 ^ 64) :
    (ofConstant ⟨w, x⟩).Covers x := by
  refine covers_fixed ?_
  simp only [ConstantExpr.getLimitedValue, APInt.toNat, toNat_ofNat]
  omega

theorem getInitialReadRange_covers {root : Array} {j : BitVec 32} {x : BitVec 8}
    (hi : i.Covers j) (hread : root.initialValue σ j.toNat = some x) :
    (getInitialReadRange root i).Covers x := by
  unfold getInitialReadRange
  split
  · next hconst =>
    simp only [Bool.and_eq_true] at hconst
    rw [Array.initialValue, if_pos hconst.1.1, hi.eq_of_fixed hconst.1.2] at hread
    refine covers_fixed ?_
    rw [List.getD_eq_getElem?_getD, hread, Option.getD_some, toNat_setWidth]
    exact Nat.mod_eq_of_lt (x.isLt.trans (by decide))
  · have hlt := x.isLt
    exact ⟨Nat.zero_le _, Nat.le_of_lt_succ hlt, by decide⟩

theorem getInitialReadRange_lt {root : Array} :
    (getInitialReadRange root i).m_max.toNat < 2 ^ 8 := by
  unfold getInitialReadRange
  split
  · rw [fixed, toNat_setWidth]
    exact (Nat.mod_le _ _).trans_lt (BitVec.isLt _)
  · decide

/-- Everything is in the full range of a byte. -/
theorem covers_of_isFullRange (h : res.isFullRange 8 = .ok true) (x : BitVec 8) : res.Covers x := by
  obtain ⟨v, hv, h⟩ := bind_eq_ok.mp h
  obtain ⟨hmin, hmax⟩ : res.m_min = 0 ∧ res.m_max = v := by
    simpa [pure, Except.pure] using h
  have hv := maxValueOfNBits_eq hv
  have hlt := x.isLt
  refine ⟨by rw [hmin]; exact Nat.zero_le _, ?_, ?_⟩ <;> rw [hmax, hv] <;> omega

mutual

/-- The range of an expression encloses its value. -/
theorem evaluate_covers : ∀ {e : Expr} {w : Nat} {x : BitVec w} {r : ValueRange},
    e.enclosed = true → Denotes σ e x → evaluate e = .ok r → r.Covers x
  | .constant value, w, x, r, he, hx, h => by
    obtain ⟨_, rfl⟩ := denotes_constant.mp hx
    cases h
    exact ofConstant_covers (of_decide_eq_true he)
  | .read root head index, w, x, r, he, hx, h => by
    obtain rfl := (typed_read.mp hx.typed).1
    obtain ⟨-, us, j, hus, hj, hread⟩ := denotes_read.mp hx
    obtain ⟨hindex, hhead⟩ := Bool.and_eq_true_iff.mp he
    obtain ⟨i, hi, h⟩ := bind_eq_ok.mp h
    have hhead := of_whenOk hhead hi
    exact evalRead_covers hhead hus (.inr hread) (evaluate_covers hindex hj hi)
      (by decide) h
  | .select c t f, w, x, r, he, hx, h => by
    obtain ⟨b, y, z, hb, hy, hz, rfl⟩ := denotes_select.mp hx
    obtain ⟨hc, he⟩ := Bool.and_eq_true_iff.mp he
    obtain ⟨rc, hrc, h⟩ := bind_eq_ok.mp h
    have hb := evaluate_covers hc hb hrc
    have he := of_whenOk he hrc
    split at h
    · next hone =>
      obtain ⟨hfix, hmin⟩ := mustBe_iff.mp hone
      have hne : b ≠ 0 := by
        rintro rfl
        have := hb.eq_of_fixed hfix
        rw [hmin] at this
        exact absurd this (by decide)
      rw [if_pos hone] at he
      rw [if_neg hne]
      exact evaluate_covers he hy h
    next hone =>
    rw [if_neg hone] at he
    split at h
    · next hzero =>
      obtain ⟨hfix, hmin⟩ := mustBe_iff.mp hzero
      have heq : b = 0 := by
        rw [toNat_eq, hb.eq_of_fixed hfix, hmin]
        rfl
      rw [if_pos hzero] at he
      rw [if_pos heq]
      exact evaluate_covers he hz h
    · next hzero =>
      rw [if_neg hzero] at he
      obtain ⟨ht, hf⟩ := Bool.and_eq_true_iff.mp he
      obtain ⟨rt, hrt, h⟩ := bind_eq_ok.mp h
      obtain ⟨rf, hrf, h⟩ := bind_eq_ok.mp h
      cases h
      have hy := evaluate_covers ht hy hrt
      have hz := evaluate_covers hf hz hrf
      split
      · exact hz.union_right hy.fits
      · exact hy.union_left hz.fits
  | .concat left right, w, x, r, he, hx, h => by
    obtain ⟨u, v, hl, hr, rfl⟩ := typed_concat.mp hx.typed
    obtain ⟨y, z, hy, hz, rfl⟩ := (denotes_concat hl hr).mp hx
    obtain ⟨he, hkeeps⟩ := Bool.and_eq_true_iff.mp he
    obtain ⟨hle, hre⟩ := Bool.and_eq_true_iff.mp he
    obtain ⟨rl, hrl, h⟩ := bind_eq_ok.mp h
    obtain ⟨rs, hrs, h⟩ := bind_eq_ok.mp h
    obtain ⟨rr, hrr, h⟩ := bind_eq_ok.mp h
    have hy := evaluate_covers hle hy hrl
    have hz := evaluate_covers hre hz hrr
    have hs := Covers.of_ok hy.zero_concat hrs
    rcases Bool.or_eq_true_iff.mp hkeeps with hbyte | hzero
    · simp only [Bool.and_eq_true, beq_iff_eq, decide_eq_true_eq, hl.getWidth_eq,
        hr.getWidth_eq] at hbyte
      obtain ⟨rfl, hu⟩ := hbyte
      rw [← APInt.shiftLeft_or_eq_append]
      exact .of_ok (hs.concat hz hu le_rfl) h
    · have hzero := of_whenOk hzero hrl
      obtain rfl := eq_fixed_of_mustBe hzero
      cases hrs
      exact (Covers.of_ok hz.zero_concat h).zero_append (hy.eq_of_fixed rfl)
  | .binary k l r', w, x, r, he, hx, h => by
    obtain ⟨y, z, hy, hz, hk⟩ := denotes_binary.mp hx
    have hwidth := hy.typed.getWidth_eq
    obtain ⟨he, -⟩ := Bool.and_eq_true_iff.mp he
    cases k
    case and | or | xor =>
      obtain ⟨hle, hre⟩ := Bool.and_eq_true_iff.mp he
      obtain ⟨rl, hrl, h⟩ := bind_eq_ok.mp h
      obtain ⟨rr, hrr, h⟩ := bind_eq_ok.mp h
      have hy := evaluate_covers hle hy hrl
      have hz := evaluate_covers hre hz hrr
      cases hk
      first
        | exact .of_ok (hy.binaryAnd hz) h
        | exact .of_ok (hy.binaryOr hz) h
        | exact .of_ok (hy.binaryXor hz) h
    case shl | lshr | ashr =>
      exact full_covers (hwidth ▸ h) x
    all_goals
      obtain ⟨_, _, h⟩ := bind_eq_ok.mp h
      obtain ⟨_, _, h⟩ := bind_eq_ok.mp h
      exact full_covers (hwidth ▸ h) x
  | .cmp k l r', w, x, r, he, hx, h => by
    obtain rfl := (typed_cmp.mp hx.typed).1
    obtain ⟨u, y, z, hy, hz, rfl⟩ := denotes_cmp.mp hx
    obtain ⟨he, -⟩ := Bool.and_eq_true_iff.mp he
    obtain ⟨hle, hre⟩ := Bool.and_eq_true_iff.mp he
    obtain ⟨rl, hrl, h⟩ := bind_eq_ok.mp h
    obtain ⟨rr, hrr, h⟩ := bind_eq_ok.mp h
    rw [hy.typed.getWidth_eq] at h
    exact compare_covers (evaluate_covers hle hy hrl)
      (evaluate_covers hre hz hrr) h
  | .notOptimized src, w, x, r, _, hx, h => full_covers
      ((typed_notOptimized.mp hx.typed).getWidth_eq ▸ h) x
  | .extract .., w, x, r, _, hx, h | .zext .., w, x, r, _, hx, h
  | .sext .., w, x, r, _, hx, h | .not _, w, x, r, _, hx, h =>
    full_covers (hx.typed.getWidth_eq ▸ h) x

/-- The range of a read from an update on encloses what is read there, and what
was covered before. -/
theorem evalRead_covers {root : Array} : ∀ {head : UpdateNode}
    {us : List (BitVec 32 × BitVec 8)} {j : BitVec 32} {x : BitVec 8}
    {i res r : ValueRange}, head.visits Expr.keeps true i res = true → head.Denotes σ us →
    res.Covers x ∨ readUpdates σ root j us = some x → i.Covers j →
    res.m_max.toNat < 2 ^ 8 → evalRead root i head res = .ok r → r.Covers x
  | .null, us, j, x, i, res, r, _, hus, hread, hi, hres, h => by
    obtain rfl := denotes_null.mp hus
    cases h
    rcases hread with hcov | hread
    · exact hcov.union_left getInitialReadRange_lt
    · exact (getInitialReadRange_covers hi hread).union_right hres
  | .node next index value, us, j, x, i, res, r, he, hus, hread, hi, hres, h => by
    obtain ⟨us', j', b, hus', hj', hb, rfl⟩ := denotes_node.mp hus
    obtain ⟨hie, he⟩ := Bool.and_eq_true_iff.mp he
    obtain ⟨ui, hui, h⟩ := bind_eq_ok.mp h
    have hj := evaluate_covers hie hj' hui
    have he := of_whenOk he hui
    rw [readUpdates] at hread
    split at h
    · next hmust =>
      obtain ⟨rv, hrv, h⟩ := bind_eq_ok.mp h
      cases h
      rw [if_pos hmust] at he
      have hv := evaluate_covers he hb hrv
      rcases hread with hcov | hread
      · exact hcov.union_left hv.fits
      · rw [if_pos (hj.eq_of_mustEqual hi hmust).symm] at hread
        cases hread
        exact hv.union_right hres
    next hmust =>
    rw [if_neg hmust] at he
    split at h
    · next hmay =>
      rw [if_pos hmay] at he
      obtain ⟨hve, he⟩ := Bool.and_eq_true_iff.mp he
      obtain ⟨rv, hrv, h⟩ := bind_eq_ok.mp h
      obtain ⟨full, hfull, h⟩ := bind_eq_ok.mp h
      have hv := evaluate_covers hve hb hrv
      have he := of_whenOk he hrv
      have he := of_whenOk he hfull
      split at h
      · next htrue =>
        cases h
        rw [htrue] at hfull
        exact covers_of_isFullRange hfull x
      next htrue =>
      have hne := (Bool.or_eq_true_iff.mp he).resolve_left htrue
      -- This update is read, or one after it.
      have hread' : (res.setUnion rv).Covers x ∨
          readUpdates σ root j us' = some x := by
        rcases hread with hcov | hread
        · exact .inl (hcov.union_left hv.fits)
        split at hread
        · cases hread
          exact .inl (hv.union_right hres)
        · exact .inr hread
      have hres' : (res.setUnion rv).m_max.toNat < 2 ^ 8 := by
        rw [setUnion_max]
        exact max_lt hres hv.fits
      exact evalRead_covers hne hus' hread' hi hres' h
    · next hmay =>
      have hne' : j ≠ j' := by
        rintro rfl
        exact hmay (hj.mayEqual hi)
      rw [if_neg hmay] at he
      rw [if_neg hne'] at hread
      exact evalRead_covers he hus' hread hi hres h

end

end ExprRangeEvaluator

end VitalSE
