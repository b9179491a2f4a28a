import Mathlib.Data.BitVec
import Mathlib.Tactic.Linarith

/-!
# The lowest set bit of a word

The tricks that isolate or clear the lowest set bit of a word, and words that
are apart: one has bits only below a position, the other only from it on.
-/

namespace BitVec

variable {w k l : Nat} {x y z : BitVec w}

/-- No bit below `k` is set. -/
def Above (k : Nat) (x : BitVec w) : Prop := ∀ i, i < k → x.getLsbD i = false

/-- The lowest set bit is bit `k`. -/
structure IsLowest (x : BitVec w) (k : Nat) : Prop where
  set : x.getLsbD k = true
  above : Above k x

theorem above_twoPow (k : Nat) : Above k (twoPow w k) := by
  intro i hi
  simp only [getLsbD_twoPow, Bool.and_eq_false_iff, decide_eq_false_iff_not]
  omega

theorem IsLowest.lt (h : IsLowest x k) : k < w := lt_of_getLsbD h.set

/-- Whatever has the lowest bit `k` has no bit below it. -/
theorem IsLowest.le_of_above (h : IsLowest x k) (ha : Above l x) : l ≤ k := by
  by_contra hlt
  have := ha k (by omega)
  simp [h.set] at this

theorem exists_isLowest (h : x ≠ 0) : ∃ k, IsLowest x k := by
  have hex : ∃ k, x.getLsbD k = true := by
    by_contra hno
    refine h (eq_of_getLsbD_eq fun i _ => ?_)
    simpa using fun hi => hno ⟨i, hi⟩
  refine ⟨Nat.find hex, Nat.find_spec hex, fun i hi => ?_⟩
  simpa using Nat.find_min hex hi

theorem isLowest_twoPow (h : k < w) : IsLowest (twoPow w k) k :=
  ⟨by simp [h], above_twoPow k⟩

/-! ## Isolating and clearing -/

theorem IsLowest.and_neg (h : IsLowest x k) : x &&& -x = twoPow w k := by
  apply eq_of_getLsbD_eq
  intro i hi
  rw [getLsbD_and, getLsbD_neg, getLsbD_twoPow]
  have hk := h.lt
  rcases Nat.lt_trichotomy i k with hlt | rfl | hgt
  · simp [h.above i hlt, hlt.ne']
  · have hno : ¬∃ j < i, x.getLsbD j = true := by
      rintro ⟨j, hj, hx⟩
      simp [h.above j hj] at hx
    simp [h.set, hi, hno]
  · have hyes : ∃ j < i, x.getLsbD j = true := ⟨k, hgt, h.set⟩
    simp [hi, hyes, hgt.ne]

theorem IsLowest.and_sub_one (h : IsLowest x k) :
    x &&& (x - 1#w) = x ^^^ twoPow w k := by
  rw [← h.and_neg, ← BitVec.not_neg]
  apply eq_of_getLsbD_eq
  intro i hi
  simp only [getLsbD_and, getLsbD_not, getLsbD_xor, hi]
  cases x.getLsbD i <;> simp

/-- The cleared word has no bit up to `k`. -/
theorem IsLowest.above_xor (h : IsLowest x k) :
    Above (k + 1) (x ^^^ twoPow w k) := by
  intro i hi
  have hk := h.lt
  rw [getLsbD_xor, getLsbD_twoPow]
  rcases Nat.lt_or_ge i k with hlt | hge
  · simp [h.above i hlt, hlt.ne']
  · obtain rfl : i = k := by omega
    simp [h.set, hk]

/-! ## Sums of words that are apart -/

theorem and_eq_iff_getLsbD :
    x &&& y = z ↔ ∀ i, (x.getLsbD i && y.getLsbD i) = z.getLsbD i := by
  constructor
  · rintro rfl i
    exact getLsbD_and.symm
  · intro h
    exact eq_of_getLsbD_eq fun i _ => getLsbD_and.trans (h i)

/-- Bits that are set are cleared. -/
theorem xor_and_self_eq_zero (h : x &&& y = y) : (x ^^^ y) &&& y = 0 := by
  rw [and_eq_iff_getLsbD] at *
  intro i
  have hi := h i
  cases hy : y.getLsbD i <;> simp_all

/-- Clearing bits that are set takes them away. -/
theorem xor_eq_sub (h : x &&& y = y) : x ^^^ y = x - y := by
  rw [eq_sub_iff_add_eq, add_eq_or_of_and_eq_zero _ _ (xor_and_self_eq_zero h)]
  rw [and_eq_iff_getLsbD] at h
  apply eq_of_getLsbD_eq
  intro i _
  have hi := h i
  cases hy : y.getLsbD i <;> simp_all

end BitVec
