import VitalSE.Lib.Bits
import Mathlib.Data.Nat.Bitwise

/-!
# Bounds of the bitwise operators over intervals

The least and the greatest value of `x ||| y` and of `x &&& y` when `x` and `y`
range over two intervals, by the classical scan from the highest bit down: the
scan keeps the end points of the intervals as the operands until it meets the
first bit where changing one of them pays.

A scan is followed by bits. `Agree k x y` says that two words have the same bits
from `k` on, and `LtFrom k x y` that the highest bit where they differ is at
`k` or above and is set in `y`. While the scan has not stopped, the operands
either agree with the end points down to the current bit or have already lost
against them above it.
-/

namespace BitVec

variable {w k l : Nat} {x y z u v a b c d m : BitVec w} {i : Nat}

/-- The same bits from `k` on. -/
def Agree (k : Nat) (x y : BitVec w) : Prop :=
  ∀ i, k ≤ i → x.getLsbD i = y.getLsbD i

/-- The words differ at `k` or above, and `y` is the greater one. -/
def LtFrom (k : Nat) (x y : BitVec w) : Prop :=
  ∃ j, k ≤ j ∧ x.getLsbD j = false ∧ y.getLsbD j = true ∧ Agree (j + 1) x y

theorem Agree.symm (h : Agree k x y) : Agree k y x := fun i hi => (h i hi).symm

theorem Agree.mono (h : Agree k x y) (hle : k ≤ l) : Agree l x y :=
  fun i hi => h i (hle.trans hi)

theorem agree_top (x y : BitVec w) : Agree w x y := fun i hi => by
  rw [getLsbD_of_ge _ _ hi, getLsbD_of_ge _ _ hi]

theorem Agree.eq (h : Agree 0 x y) : x = y :=
  eq_of_getLsbD_eq fun i _ => h i (Nat.zero_le i)

/-- One more bit. -/
theorem Agree.down (h : Agree (k + 1) x y) (hk : x.getLsbD k = y.getLsbD k) : Agree k x y := by
  intro i hi
  rcases Nat.lt_or_ge k i with hlt | hge
  · exact h i hlt
  · obtain rfl : i = k := by omega
    exact hk

theorem Agree.or (hx : Agree k x u) (hy : Agree k y v) :
    Agree k (x ||| y) (u ||| v) := fun i hi => by
  rw [getLsbD_or, getLsbD_or, hx i hi, hy i hi]

theorem LtFrom.lt (h : LtFrom k x y) : x < y := by
  obtain ⟨j, _, hx, hy, hj⟩ := h
  exact Nat.lt_of_testBit j hx hy fun i hi => hj i hi

theorem LtFrom.mono (h : LtFrom k x y) (hle : l ≤ k) : LtFrom l x y := by
  obtain ⟨j, hkj, hj⟩ := h
  exact ⟨j, hle.trans hkj, hj⟩

theorem LtFrom.congr (h : LtFrom k x y) (hx : Agree k x u) (hy : Agree k y v) : LtFrom k u v := by
  obtain ⟨j, hkj, hxj, hyj, hj⟩ := h
  refine ⟨j, hkj, (hx j hkj).symm.trans hxj, (hy j hkj).symm.trans hyj, ?_⟩
  intro i hi
  have hki : k ≤ i := by omega
  rw [← hx i hki, ← hy i hki, hj i hi]

/-- Two words agree from `k` on, or one of them is greater there. -/
theorem agree_or_ltFrom (k : Nat) (x y : BitVec w) : Agree k x y ∨ LtFrom k x y ∨ LtFrom k y x := by
  rcases Nat.lt_or_ge w k with hlt | hge
  · exact .inl ((agree_top x y).mono hlt.le)
  -- By induction from the width down.
  induction hge using Nat.decreasingInduction with
  | self => exact .inl (agree_top x y)
  | of_succ k _ ih =>
    rcases ih with h | h | h
    · cases hx : x.getLsbD k <;> cases hy : y.getLsbD k
      · exact .inl (h.down (hx.trans hy.symm))
      · exact .inr (.inl ⟨k, le_rfl, hx, hy, h⟩)
      · exact .inr (.inr ⟨k, le_rfl, hy, hx, h.symm⟩)
      · exact .inl (h.down (hx.trans hy.symm))
    · exact .inr (.inl (h.mono k.le_succ))
    · exact .inr (.inr (h.mono k.le_succ))

theorem agree_or_ltFrom_of_le (k : Nat) (h : x ≤ y) : Agree k x y ∨ LtFrom k x y := by
  rcases agree_or_ltFrom k x y with h' | h' | h'
  · exact .inl h'
  · exact .inr h'
  · exact absurd h'.lt (BitVec.not_lt.mpr h)

/-- A word that is not the smaller one and agrees above `k` has the set bit. -/
theorem Agree.bit_of_le (h : Agree (k + 1) x y) (hle : x ≤ y)
    (hx : x.getLsbD k = true) : y.getLsbD k = true := by
  by_contra hy
  exact BitVec.not_lt.mpr hle
    (LtFrom.lt ⟨k, le_rfl, by simpa using hy, hx, h.symm⟩)

theorem le_of_bits (h : ∀ i, x.getLsbD i = true → y.getLsbD i = true) : x ≤ y := by
  rcases agree_or_ltFrom 0 x y with h' | h' | h'
  · rw [h'.eq]
    exact BitVec.le_refl y
  · exact BitVec.le_of_lt h'.lt
  · obtain ⟨j, _, hy, hx, _⟩ := h'
    simp [h j hx] at hy

/-! ## The words of the scan -/

theorem and_twoPow_ne_zero (hk : k < w) : x &&& twoPow w k ≠ 0#w ↔ x.getLsbD k = true := by
  rw [and_twoPow]
  constructor
  · intro h
    by_contra hx
    simp [hx] at h
  · intro h h0
    rw [if_pos h] at h0
    have := congrArg (getLsbD · k) h0
    simp [hk] at this

theorem getLsbD_neg_twoPow (hk : k < w) (hi : i < w) :
    (-twoPow w k).getLsbD i = decide (k ≤ i) := by
  rw [getLsbD_neg, getLsbD_twoPow]
  have hex : (∃ j < i, (twoPow w k).getLsbD j = true) ↔ k < i := by
    constructor
    · rintro ⟨j, hj, h⟩
      simp only [getLsbD_twoPow, Bool.and_eq_true, decide_eq_true_eq] at h
      omega
    · intro h
      exact ⟨k, h, by simp [hk]⟩
  simp only [hex, hk, hi, decide_true, Bool.true_and]
  rcases Nat.lt_trichotomy k i with h | rfl | h
  · simp [h, h.ne, h.le]
  · simp
  · simp [h.not_ge, h.ne', h.not_gt]

/-- `x` with bit `k` set and nothing below it. -/
def raise (k : Nat) (x : BitVec w) : BitVec w :=
  (x ||| twoPow w k) &&& -twoPow w k

theorem getLsbD_raise (hk : k < w) :
    (raise k x).getLsbD i = if i < k then false else
      if i = k then true else x.getLsbD i := by
  rcases Nat.lt_or_ge i w with hi | hi
  · rw [raise, getLsbD_and, getLsbD_or, getLsbD_neg_twoPow hk hi, getLsbD_twoPow]
    rcases Nat.lt_trichotomy k i with h | rfl | h
    · simp [h.le, h.ne, h.ne', h.not_gt]
    · simp [hk]
    · simp [h, h.not_ge]
  · rw [getLsbD_of_ge _ _ hi, getLsbD_of_ge _ _ hi]
    simp [show ¬i < k by omega, show ¬i = k by omega]

/-- `x` with bit `k` cleared and everything below it set. -/
def lower (k : Nat) (x : BitVec w) : BitVec w :=
  (x &&& ~~~twoPow w k) ||| (twoPow w k - 1#w)

theorem lower_eq (k : Nat) (x : BitVec w) : lower k x = ~~~raise k (~~~x) := by
  rw [lower, raise, ← BitVec.not_neg]
  apply eq_of_getLsbD_eq
  intro i hi
  simp [hi]

theorem getLsbD_lower (hk : k < w) :
    (lower k x).getLsbD i = if i < k then true else
      if i = k then false else x.getLsbD i := by
  rw [lower_eq, getLsbD_not, getLsbD_raise hk, getLsbD_not]
  split_ifs with h1 h2
  · simp [show i < w by omega]
  · simp
  · by_cases hi : i < w
    · simp [hi]
    · simp [hi, getLsbD_of_ge x i (Nat.not_lt.mp hi)]

/-- Where the bit is set, subtracting it clears it. -/
theorem sub_twoPow_or (h : x.getLsbD k = true) :
    (x - twoPow w k) ||| (twoPow w k - 1#w) = lower k x := by
  have hk := lt_of_getLsbD h
  have hx : x &&& twoPow w k = twoPow w k := by
    rw [and_twoPow, if_pos h]
  rw [lower, ← xor_eq_sub hx]
  congr 1
  apply eq_of_getLsbD_eq
  intro i hi
  rw [getLsbD_xor, getLsbD_and, getLsbD_not, getLsbD_twoPow]
  by_cases hki : k = i
  · subst hki
    simp [h, hk]
  · simp [hki, hi]

theorem raise_agree (hk : k < w) : Agree (k + 1) (raise k x) x := by
  intro i hi
  rw [getLsbD_raise hk, if_neg (by omega), if_neg (by omega)]

theorem lower_agree (hk : k < w) : Agree (k + 1) (lower k x) x := by
  intro i hi
  rw [getLsbD_lower hk, if_neg (by omega), if_neg (by omega)]

/-- Raising `a` at `k` gives the least word above it with that bit. -/
theorem le_raise (hk : k < w) (hx : x.getLsbD k = false) : x ≤ raise k x :=
  BitVec.le_of_lt (LtFrom.lt ⟨k, le_rfl, hx, by simp [getLsbD_raise hk], (raise_agree hk).symm⟩)

theorem lower_le (hk : k < w) (hx : x.getLsbD k = true) : lower k x ≤ x :=
  BitVec.le_of_lt (LtFrom.lt ⟨k, le_rfl, by simp [getLsbD_lower hk], hx, lower_agree hk⟩)

theorem raise_le (hk : k < w) (h : Agree (k + 1) a x)
    (hx : x.getLsbD k = true) : raise k a ≤ x := by
  refine le_of_bits fun i hi => ?_
  rw [getLsbD_raise hk] at hi
  split at hi
  · cases hi
  split at hi
  · next heq => rwa [heq]
  · rwa [← h i (by omega)]

/-- Lowering `b` at `k` gives the greatest word below it without that bit. -/
theorem le_lower (hk : k < w) (h : Agree (k + 1) b x)
    (hx : x.getLsbD k = false) : x ≤ lower k b := by
  refine le_of_bits fun i hi => ?_
  rw [getLsbD_lower hk]
  split
  · rfl
  split
  · next heq =>
    rw [heq, hx] at hi
    cases hi
  · rwa [h i (by omega)]

theorem or_le_or_left (h : c ≤ y) (hagree : Agree k c y)
    (hm : ∀ i, i < k → m.getLsbD i = false) : m ||| c ≤ m ||| y := by
  rcases agree_or_ltFrom_of_le 0 h with h' | ⟨j, _, hc, hy, hj⟩
  · rw [h'.eq]
    exact BitVec.le_refl _
  have hjk : j < k := by
    by_contra hge
    have := hagree j (by omega)
    simp [hc, hy] at this
  refine BitVec.le_of_lt (LtFrom.lt (k := 0) ⟨j, j.zero_le, ?_, ?_, ?_⟩)
  · rw [getLsbD_or, hc, hm j hjk, Bool.or_false]
  · rw [getLsbD_or, hy, Bool.or_true]
  · exact Agree.or (fun _ _ => rfl) hj

/-! ## The four scans

Each scan is given the number of bits it still looks at. -/

/-- The scan for the least `x | y`, with `x` in `[a, b]` and `y` in `[c, d]`. -/
def minOr (a b c d : BitVec w) : Nat → BitVec w
  | 0 => a ||| c
  | k + 1 =>
    let m := twoPow w k
    if ~~~a &&& c &&& m ≠ 0#w then
      let temp := (a ||| m) &&& -m
      if temp ≤ b then temp ||| c else minOr a b c d k
    else if a &&& ~~~c &&& m ≠ 0#w then
      let temp := (c ||| m) &&& -m
      if temp ≤ d then a ||| temp else minOr a b c d k
    else minOr a b c d k

/-- The scan for the greatest `x | y`. -/
def maxOr (a b c d : BitVec w) : Nat → BitVec w
  | 0 => b ||| d
  | k + 1 =>
    let m := twoPow w k
    if b &&& d &&& m ≠ 0#w then
      let temp := (b - m) ||| (m - 1#w)
      if a ≤ temp then temp ||| d
      else
        let temp := (d - m) ||| (m - 1#w)
        if c ≤ temp then b ||| temp else maxOr a b c d k
    else maxOr a b c d k

/-- The scan for the least `x & y`. -/
def minAnd (a b c d : BitVec w) : Nat → BitVec w
  | 0 => a &&& c
  | k + 1 =>
    let m := twoPow w k
    if ~~~a &&& ~~~c &&& m ≠ 0#w then
      let temp := (a ||| m) &&& -m
      if temp ≤ b then temp &&& c
      else
        let temp := (c ||| m) &&& -m
        if temp ≤ d then a &&& temp else minAnd a b c d k
    else minAnd a b c d k

/-- The scan for the greatest `x & y`. -/
def maxAnd (a b c d : BitVec w) : Nat → BitVec w
  | 0 => b &&& d
  | k + 1 =>
    let m := twoPow w k
    if b &&& ~~~d &&& m ≠ 0#w then
      let temp := (b &&& ~~~m) ||| (m - 1#w)
      if a ≤ temp then temp &&& d else maxAnd a b c d k
    else if ~~~b &&& d &&& m ≠ 0#w then
      let temp := (d &&& ~~~m) ||| (m - 1#w)
      if c ≤ temp then b &&& temp else maxAnd a b c d k
    else maxAnd a b c d k

/-! The lower operands `a` and `c` and the upper ones `x` and `y` of a scan. -/

/-- From bit `k` on the operands agree, or the scan has been decided. -/
def Close (k : Nat) (a c x y : BitVec w) : Prop :=
  LtFrom k (a ||| c) (x ||| y) ∨ Agree k a x ∧ Agree k c y

theorem Close.comm (h : Close k a c x y) : Close k c a y x := by
  rw [Close, or_comm c, or_comm y, And.comm]
  exact h

theorem close_top (a c x y : BitVec w) : Close w a c x y :=
  .inr ⟨agree_top a x, agree_top c y⟩

theorem Close.le (h : Close 0 a c x y) : a ||| c ≤ x ||| y := by
  rcases h with h | ⟨ha, hc⟩
  · exact BitVec.le_of_lt h.lt
  · rw [ha.eq, hc.eq]
    exact BitVec.le_refl _

/-- A scan that does not stop at `k` keeps its invariant: the operands differ at `k`
only in favour of the bound. -/
theorem Close.down (h : Close (k + 1) a c x y) (hax : a ≤ x) (hcy : c ≤ y)
    (hx : Agree (k + 1) a x → Agree (k + 1) c y → a.getLsbD k = false →
      c.getLsbD k = true → x.getLsbD k = false)
    (hy : Agree (k + 1) a x → Agree (k + 1) c y → a.getLsbD k = true →
      c.getLsbD k = false → y.getLsbD k = false) : Close k a c x y := by
  rcases h with h | ⟨ha, hc⟩
  · exact .inl (h.mono k.le_succ)
  have hax' := ha.bit_of_le hax
  have hcy' := hc.bit_of_le hcy
  have bits : ∀ p q r s : Bool, (p = true → r = true) → (q = true → s = true) →
      (p = false → q = true → r = false) →
      (p = true → q = false → s = false) →
      (p = r ∧ q = s) ∨ ((p || q) = false ∧ (r || s) = true) := by decide
  rcases bits _ _ _ _ hax' hcy' (hx ha hc) (hy ha hc) with ⟨h1, h2⟩ | ⟨h1, h2⟩
  · exact .inr ⟨ha.down h1, hc.down h2⟩
  · exact .inl ⟨k, le_rfl, by rwa [getLsbD_or], by rwa [getLsbD_or], ha.or hc⟩

/-! A scan that stops at `k` has found a bound. -/

theorem raise_or_le (hk : k < w) (h : Close (k + 1) a c x y) (hcy : c ≤ y)
    (hck : c.getLsbD k = true) : raise k a ||| c ≤ x ||| y := by
  rcases h with h | ⟨ha, hc⟩
  · exact BitVec.le_of_lt (h.congr ((raise_agree hk).symm.or fun _ _ => rfl) fun _ _ => rfl).lt
  have hyk := hc.bit_of_le hcy hck
  have hlow : ∀ i, i < k → (raise k a).getLsbD i = false := fun i hi => by
    rw [getLsbD_raise hk, if_pos hi]
  refine BitVec.le_trans
    (or_le_or_left hcy (hc.down (hck.trans hyk.symm)) hlow) ?_
  refine le_of_bits fun i hi => ?_
  rw [getLsbD_or, Bool.or_eq_true] at hi ⊢
  refine hi.elim (fun hi => ?_) .inr
  rcases Nat.lt_trichotomy i k with hlt | rfl | hgt
  · rw [hlow i hlt] at hi
    cases hi
  · exact .inr hyk
  · rw [raise_agree hk i hgt, ha i hgt] at hi
    exact .inl hi

theorem or_le_lower (hk : k < w) (h : Close (k + 1) x y b d)
    (hdk : d.getLsbD k = true) : x ||| y ≤ lower k b ||| d := by
  rcases h with h | ⟨hb, hd⟩
  · exact BitVec.le_of_lt (h.congr (fun _ _ => rfl) ((lower_agree hk).symm.or fun _ _ => rfl)).lt
  refine le_of_bits fun i hi => ?_
  rw [getLsbD_or, Bool.or_eq_true] at hi ⊢
  rcases Nat.lt_trichotomy i k with hlt | rfl | hgt
  · rw [getLsbD_lower hk, if_pos hlt]
    exact .inl rfl
  · exact .inr hdk
  · rwa [lower_agree hk i hgt, ← hb i hgt, ← hd i hgt]

section

variable (hax : a ≤ x) (hxb : x ≤ b) (hcy : c ≤ y) (hyd : y ≤ d)
include hax hxb hcy hyd

theorem minOr_le_of (hk : k ≤ w) (h : Close k a c x y) : minOr a b c d k ≤ x ||| y := by
  induction k with
  | zero => exact h.le
  | succ k ih =>
    have hk' : k < w := hk
    -- Going on needs the invariant at `k`.
    have next (hx : a.getLsbD k = false → c.getLsbD k = true →
          ¬raise k a ≤ b) (hy : a.getLsbD k = true → c.getLsbD k = false →
          ¬raise k c ≤ d) : minOr a b c d k ≤ x ||| y := by
      refine ih hk'.le (h.down hax hcy (fun ha hc h1 h2 => ?_) fun ha hc h1 h2 => ?_)
      · by_contra hxk
        exact hx h1 h2 (BitVec.le_trans (raise_le hk' ha (by simpa using hxk)) hxb)
      · by_contra hyk
        exact hy h1 h2 (BitVec.le_trans (raise_le hk' hc (by simpa using hyk)) hyd)
    simp only [minOr, and_twoPow_ne_zero hk', getLsbD_and, getLsbD_not, hk',
      decide_true, Bool.true_and, Bool.and_eq_true, Bool.not_eq_true']
    split
    · next hac =>
      split
      · exact raise_or_le hk' h hcy hac.2
      · next hle =>
        exact next (fun _ _ => hle) fun h1 _ => by simp [h1] at hac
    · next hac =>
      split
      · next hca =>
        split
        · rw [or_comm a, or_comm x]
          exact raise_or_le hk' h.comm hax hca.1
        · next hle =>
          exact next (fun h1 _ => by simp [h1] at hca) fun _ _ => hle
      · next hca =>
        exact next (fun h1 h2 => absurd ⟨h1, h2⟩ hac)
          fun h1 h2 => absurd ⟨h1, h2⟩ hca

theorem maxOr_ge_of (hk : k ≤ w) (h : Close k x y b d) : x ||| y ≤ maxOr a b c d k := by
  induction k with
  | zero => exact h.le
  | succ k ih =>
    have hk' : k < w := hk
    have next (hx : b.getLsbD k = true → d.getLsbD k = true → ¬a ≤ lower k b)
        (hy : b.getLsbD k = true → d.getLsbD k = true → ¬c ≤ lower k d) :
        x ||| y ≤ maxOr a b c d k := by
      refine ih hk'.le (h.down hxb hyd (fun hb hd h1 h2 => ?_) fun hb hd h1 h2 => ?_)
      · by_contra hbk
        exact hx (by simpa using hbk) (hd.bit_of_le hyd h2)
          (BitVec.le_trans hax (le_lower hk' hb.symm h1))
      · by_contra hdk
        exact hy (hb.bit_of_le hxb h1) (by simpa using hdk)
          (BitVec.le_trans hcy (le_lower hk' hd.symm h2))
    simp only [maxOr, and_twoPow_ne_zero hk', getLsbD_and, Bool.and_eq_true]
    split
    · next hbd =>
      rw [sub_twoPow_or hbd.1, sub_twoPow_or hbd.2]
      split
      · exact or_le_lower hk' h hbd.2
      next hle =>
      split
      · rw [or_comm b, or_comm x]
        exact or_le_lower hk' h.comm hbd.1
      · next hle' => exact next (fun _ _ => hle) fun _ _ => hle'
    · next hbd =>
      exact next (fun h1 h2 => absurd ⟨h1, h2⟩ hbd)
        fun h1 h2 => absurd ⟨h1, h2⟩ hbd

/-! Started at the top, where every two words agree, the scans bound the
operators. -/

theorem minOr_le : minOr a b c d w ≤ x ||| y :=
  minOr_le_of hax hxb hcy hyd le_rfl (close_top ..)

theorem le_maxOr : x ||| y ≤ maxOr a b c d w :=
  maxOr_ge_of hax hxb hcy hyd le_rfl (close_top ..)

end

/-! Both bounds are attained: whatever operand a scan changes stays in its interval. -/

/-- The values of an operator on the elements of two intervals. -/
def Values (op : BitVec w → BitVec w → BitVec w) (a b c d : BitVec w) : Set (BitVec w) :=
  {z | ∃ x y, (a ≤ x ∧ x ≤ b) ∧ (c ≤ y ∧ y ≤ d) ∧ op x y = z}

section

variable (hab : a ≤ b) (hcd : c ≤ d)
include hab hcd

theorem minOr_mem (hk : k ≤ w) : minOr a b c d k ∈ Values (· ||| ·) a b c d := by
  have ha : a ≤ a ∧ a ≤ b := ⟨BitVec.le_refl a, hab⟩
  have hc : c ≤ c ∧ c ≤ d := ⟨BitVec.le_refl c, hcd⟩
  induction k with
  | zero => exact ⟨a, c, ha, hc, rfl⟩
  | succ k ih =>
    have ih := ih (by omega)
    simp only [minOr, and_twoPow_ne_zero hk, getLsbD_and, getLsbD_not,
      Bool.and_eq_true, Bool.not_eq_true']
    split
    · next hac =>
      split
      · next hle => exact ⟨_, c, ⟨le_raise hk hac.1.2, hle⟩, hc, rfl⟩
      · exact ih
    split
    · next hca =>
      split
      · next hle => exact ⟨a, _, ha, ⟨le_raise hk hca.2.2, hle⟩, rfl⟩
      · exact ih
    · exact ih

theorem maxOr_mem (hk : k ≤ w) : maxOr a b c d k ∈ Values (· ||| ·) a b c d := by
  have hb : a ≤ b ∧ b ≤ b := ⟨hab, BitVec.le_refl b⟩
  have hd : c ≤ d ∧ d ≤ d := ⟨hcd, BitVec.le_refl d⟩
  induction k with
  | zero => exact ⟨b, d, hb, hd, rfl⟩
  | succ k ih =>
    have ih := ih (by omega)
    simp only [maxOr, and_twoPow_ne_zero hk, getLsbD_and, Bool.and_eq_true]
    split
    · next hbd =>
      rw [sub_twoPow_or hbd.1, sub_twoPow_or hbd.2]
      split
      · next hle => exact ⟨_, d, ⟨hle, lower_le hk hbd.1⟩, hd, rfl⟩
      split
      · next hle => exact ⟨b, _, hb, ⟨hle, lower_le hk hbd.2⟩, rfl⟩
      · exact ih
    · exact ih

theorem isLeast_minOr : IsLeast (Values (· ||| ·) a b c d) (minOr a b c d w) := by
  refine ⟨minOr_mem hab hcd le_rfl, ?_⟩
  rintro _ ⟨x, y, hx, hy, rfl⟩
  exact minOr_le hx.1 hx.2 hy.1 hy.2

theorem isGreatest_maxOr : IsGreatest (Values (· ||| ·) a b c d) (maxOr a b c d w) := by
  refine ⟨maxOr_mem hab hcd le_rfl, ?_⟩
  rintro _ ⟨x, y, hx, hy, rfl⟩
  exact le_maxOr hx.1 hx.2 hy.1 hy.2

end

/-! The scans for `&&&` are those for `|||` on the complements, with the ends of the
intervals exchanged. -/

theorem not_le_not_iff : ~~~x ≤ ~~~y ↔ y ≤ x := by
  rw [BitVec.le_def, BitVec.le_def, toNat_not, toNat_not]
  omega

theorem and_eq_not (x y : BitVec w) : x &&& y = ~~~(~~~x ||| ~~~y) := by
  rw [BitVec.not_or, not_not, not_not]

theorem le_lower_iff : y ≤ lower k x ↔ raise k (~~~x) ≤ ~~~y := by
  rw [lower_eq, ← not_le_not_iff, not_not]

theorem maxAnd_eq : maxAnd a b c d k = ~~~minOr (~~~b) (~~~a) (~~~d) (~~~c) k := by
  induction k with
  | zero => exact and_eq_not b d
  | succ k ih =>
    show (if b &&& ~~~d &&& twoPow w k ≠ 0#w then
        if a ≤ lower k b then lower k b &&& d else maxAnd a b c d k
      else if ~~~b &&& d &&& twoPow w k ≠ 0#w then
        if c ≤ lower k d then b &&& lower k d else maxAnd a b c d k
      else maxAnd a b c d k) = ~~~(if ~~~~~~b &&& ~~~d &&& twoPow w k ≠ 0#w then
        if raise k (~~~b) ≤ ~~~a then raise k (~~~b) ||| ~~~d
        else minOr (~~~b) (~~~a) (~~~d) (~~~c) k
      else if ~~~b &&& ~~~~~~d &&& twoPow w k ≠ 0#w then
        if raise k (~~~d) ≤ ~~~c then ~~~b ||| raise k (~~~d)
        else minOr (~~~b) (~~~a) (~~~d) (~~~c) k
      else minOr (~~~b) (~~~a) (~~~d) (~~~c) k)
    simp only [not_not, le_lower_iff, ih]
    split_ifs
    · rw [and_eq_not, lower_eq, not_not]
    · rfl
    · rw [and_eq_not, lower_eq, not_not]
    · rfl
    · rfl

theorem minAnd_eq (hk : k ≤ w) : minAnd a b c d k = ~~~maxOr (~~~b) (~~~a) (~~~d) (~~~c) k := by
  induction k with
  | zero => exact and_eq_not a c
  | succ k ih =>
    have hlower {x y : BitVec w} (h : ~~~x &&& y &&& twoPow w k ≠ 0#w) :
        (~~~x - twoPow w k) ||| (twoPow w k - 1#w) = ~~~raise k x := by
      rw [and_twoPow_ne_zero hk, getLsbD_and, Bool.and_eq_true] at h
      rw [sub_twoPow_or h.1, lower_eq, not_not]
    show (if ~~~a &&& ~~~c &&& twoPow w k ≠ 0#w then
        if raise k a ≤ b then raise k a &&& c
        else if raise k c ≤ d then a &&& raise k c else minAnd a b c d k
      else minAnd a b c d k) = ~~~maxOr (~~~b) (~~~a) (~~~d) (~~~c) (k + 1)
    rw [maxOr, ih (by omega)]
    by_cases h : ~~~a &&& ~~~c &&& twoPow w k ≠ 0#w
    · have h' : ~~~c &&& ~~~a &&& twoPow w k ≠ 0#w := by rwa [and_comm (~~~c)]
      simp only [if_pos h, hlower h, hlower h', not_le_not_iff]
      split_ifs
      · rw [and_eq_not]
      · rw [and_eq_not]
      · rfl
    · simp only [if_neg h]

section

variable (hax : a ≤ x) (hxb : x ≤ b) (hcy : c ≤ y) (hyd : y ≤ d)
include hax hxb hcy hyd

theorem minAnd_le : minAnd a b c d w ≤ x &&& y := by
  rw [minAnd_eq le_rfl, and_eq_not, not_le_not_iff]
  exact le_maxOr (not_le_not_iff.mpr hxb) (not_le_not_iff.mpr hax) (not_le_not_iff.mpr hyd)
    (not_le_not_iff.mpr hcy)

theorem le_maxAnd : x &&& y ≤ maxAnd a b c d w := by
  rw [maxAnd_eq, and_eq_not, not_le_not_iff]
  exact minOr_le (not_le_not_iff.mpr hxb) (not_le_not_iff.mpr hax) (not_le_not_iff.mpr hyd)
    (not_le_not_iff.mpr hcy)

end

theorem not_mem_values (h : z ∈ Values (· ||| ·) (~~~b) (~~~a) (~~~d) (~~~c)) :
    ~~~z ∈ Values (· &&& ·) a b c d := by
  have hflip {p q r : BitVec w} (h : ~~~q ≤ r ∧ r ≤ ~~~p) : p ≤ ~~~r ∧ ~~~r ≤ q := by
    constructor
    · rw [← not_le_not_iff, not_not]
      exact h.2
    · rw [← not_le_not_iff, not_not]
      exact h.1
  obtain ⟨x, y, hx, hy, rfl⟩ := h
  exact ⟨~~~x, ~~~y, hflip hx, hflip hy, BitVec.not_or.symm⟩

section

variable (hab : a ≤ b) (hcd : c ≤ d)
include hab hcd

theorem isLeast_minAnd : IsLeast (Values (· &&& ·) a b c d) (minAnd a b c d w) := by
  constructor
  · rw [minAnd_eq le_rfl]
    exact not_mem_values
      (maxOr_mem (not_le_not_iff.mpr hab) (not_le_not_iff.mpr hcd) le_rfl)
  · rintro _ ⟨x, y, hx, hy, rfl⟩
    exact minAnd_le hx.1 hx.2 hy.1 hy.2

theorem isGreatest_maxAnd : IsGreatest (Values (· &&& ·) a b c d) (maxAnd a b c d w) := by
  constructor
  · rw [maxAnd_eq]
    exact not_mem_values
      (minOr_mem (not_le_not_iff.mpr hab) (not_le_not_iff.mpr hcd) le_rfl)
  · rintro _ ⟨x, y, hx, hy, rfl⟩
    exact le_maxAnd hx.1 hx.2 hy.1 hy.2

end

/-! ## The highest set bit

Clearing the lowest set bit until one bit is left. A word without a set bit
has none to be left with, and the loop does not end on it. -/

/-- One bit is set. -/
def isPowerOfTwo (x : BitVec w) : Bool :=
  x ≠ 0#w && x &&& (x - 1#w) == 0#w

/-- The highest set bit, after at most so many rounds. -/
def isolateTop : Nat → BitVec w → Option (BitVec w)
  | 0, _ => none
  | n + 1, x =>
    if x.isPowerOfTwo then some x else isolateTop n (x &&& (x - 1#w))

theorem isPowerOfTwo_iff : x.isPowerOfTwo ↔ ∃ k < w, x = twoPow w k := by
  simp only [isPowerOfTwo, Bool.and_eq_true, decide_eq_true_eq, beq_iff_eq]
  constructor
  · rintro ⟨hne, h⟩
    obtain ⟨k, hk⟩ := exists_isLowest hne
    refine ⟨k, hk.lt, ?_⟩
    rw [hk.and_sub_one] at h
    have := congrArg (· ^^^ twoPow w k) h
    simpa [xor_assoc] using this
  · rintro ⟨k, hk, rfl⟩
    have hlow := isLowest_twoPow hk
    refine ⟨fun h0 => ?_, ?_⟩
    · have := hlow.set
      rw [h0] at this
      simp at this
    · rw [hlow.and_sub_one, xor_self]

/-- A word with more than one set bit, without the lowest of them. -/
theorem lt_of_clear_lowest (hx : x ≠ 0#w) (hy : x &&& (x - 1#w) ≠ 0#w)
    (h : (x &&& (x - 1#w)).toNat < 2 ^ l) : x.toNat < 2 ^ l := by
  obtain ⟨k, hk⟩ := exists_isLowest hx
  rw [hk.and_sub_one] at h hy
  obtain ⟨j, hj⟩ := exists_isLowest hy
  have hkj : k < j := hj.le_of_above hk.above_xor
  have hjl : j < l := (Nat.pow_lt_pow_iff_right (by decide)).mp
    ((Nat.ge_two_pow_of_testBit hj.set).trans_lt h)
  refine Nat.lt_pow_two_of_testBit _ fun i hi => ?_
  have hclear : (x ^^^ twoPow w k).getLsbD i = false :=
    Nat.testBit_lt_two_pow (h.trans_le (Nat.pow_le_pow_right (by decide) hi))
  rw [getLsbD_xor, getLsbD_twoPow] at hclear
  rw [testBit_toNat]
  simpa [show k ≠ i by omega] using hclear

/-- As many rounds as the word has bits above its lowest ones. -/
theorem isolateTop_spec {n : Nat} (hx : x ≠ 0#w) (ha : Above i x) (hn : w - i ≤ n) :
    ∃ k, isolateTop n x = some (twoPow w k) ∧ x.getLsbD k = true ∧ x.toNat < 2 ^ (k + 1) := by
  induction n generalizing x i with
  | zero =>
    obtain ⟨k, hk⟩ := exists_isLowest hx
    have := hk.le_of_above ha
    have := hk.lt
    omega
  | succ n ih =>
    rw [isolateTop]
    split
    · next hpow =>
      obtain ⟨k, hk, rfl⟩ := isPowerOfTwo_iff.mp hpow
      refine ⟨k, rfl, (isLowest_twoPow hk).set, ?_⟩
      rw [toNat_twoPow_of_lt hk]
      exact Nat.pow_lt_pow_right (by decide) k.lt_succ_self
    · next hpow =>
      have hne : x &&& (x - 1#w) ≠ 0#w := fun h0 => hpow (by simp [isPowerOfTwo, hx, h0])
      obtain ⟨j, hj⟩ := exists_isLowest hx
      have hij := hj.le_of_above ha
      have hjw := hj.lt
      have habove : Above (j + 1) (x &&& (x - 1#w)) := hj.and_sub_one ▸ hj.above_xor
      obtain ⟨k, heq, hk, hlt⟩ := ih hne habove (by omega)
      rw [getLsbD_and, Bool.and_eq_true] at hk
      exact ⟨k, heq, hk.1, lt_of_clear_lowest hx hne hlt⟩

end BitVec
