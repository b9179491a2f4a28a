import Mathlib.Logic.Function.Iterate
import Mathlib.Algebra.Ring.Nat

/-!
# Moving bytes

`memmove` of the freestanding runtime, on a memory of 64-bit addresses. The two loops
differ only in the direction of the pointers. A loop copies the old bytes as long as it
writes none that it has yet to read, and the comparison of the addresses picks a
direction in which this is so.
-/

namespace VitalSE.Runtime

abbrev Memory := BitVec 64 → BitVec 8

/-- A loop `while (count--)` that copies a byte and moves both pointers. -/
def copy (next : BitVec 64 → BitVec 64) : Nat → Memory → BitVec 64 → BitVec 64 → Memory
  | 0, mem, _, _ => mem
  | count + 1, mem, a, b => copy next count (Function.update mem a (mem b)) (next a) (next b)

/-- The pointer that is returned and the memory after the call. -/
def memmove (mem : Memory) (dst src count : BitVec 64) : BitVec 64 × Memory :=
  if src = dst then (dst, mem)
  else if src > dst then (dst, copy (· + 1) count.toNat mem dst src)
  else (dst, copy (· - 1) count.toNat mem (dst + (count - 1)) (src + (count - 1)))

variable {f : BitVec 64 → BitVec 64} {n : Nat} {m : Memory} {a b : BitVec 64}

/-- No byte is written twice, nor before it is read. -/
theorem copy_spec (h : ∀ j < n, ∀ i < j, f^[i] a ≠ f^[j] a ∧ f^[i] a ≠ f^[j] b) :
    (∀ i < n, copy f n m a b (f^[i] a) = m (f^[i] b)) ∧
      ∀ p, (∀ i < n, p ≠ f^[i] a) → copy f n m a b p = m p := by
  induction n generalizing m a b with
  | zero => exact ⟨fun i hi => absurd hi i.not_lt_zero, fun _ _ => rfl⟩
  | succ n ih =>
    obtain ⟨hcopied, hframe⟩ := ih (m := Function.update m a (m b)) (a := f a) (b := f b)
      fun j hj i hi => h (j + 1) (by omega) (i + 1) (by omega)
    refine ⟨fun i hi => ?_, fun p hp => ?_⟩
    · cases i with
      | zero =>
        refine (hframe a fun i hi => (h (i + 1) (by omega) 0 (by omega)).1).trans ?_
        exact Function.update_self ..
      | succ i =>
        refine (hcopied i (by omega)).trans (Function.update_of_ne ?_ ..)
        exact (h (i + 1) hi 0 (by omega)).2.symm
    · refine (hframe p fun i hi => hp (i + 1) (by omega)).trans ?_
      exact Function.update_of_ne (hp 0 (by omega)) ..

theorem iterate_add_one (n : Nat) : (· + 1)^[n] a = a + BitVec.ofNat 64 n := by
  induction n with
  | zero => simp
  | succ n ih =>
    rw [Function.iterate_succ_apply', ih, BitVec.ofNat_add, ← BitVec.add_assoc]
    rfl

theorem iterate_sub_one (n : Nat) : (· - 1)^[n] a = a - BitVec.ofNat 64 n := by
  induction n with
  | zero => simp
  | succ n ih =>
    rw [Function.iterate_succ_apply', ih, BitVec.ofNat_add, ← BitVec.sub_sub]
    rfl

/-- The destination holds what the source held, and nothing else has changed. -/
theorem memmove_moves (mem : Memory) (dst src count : BitVec 64)
    (hdst : dst.toNat + count.toNat ≤ 2 ^ 64) (hsrc : src.toNat + count.toNat ≤ 2 ^ 64) :
    (∀ i < count.toNat, (memmove mem dst src count).2 (dst + BitVec.ofNat 64 i) =
      mem (src + BitVec.ofNat 64 i)) ∧
    ∀ p, (∀ i < count.toNat, p ≠ dst + BitVec.ofNat 64 i) →
      (memmove mem dst src count).2 p = mem p := by
  unfold memmove
  split
  · next h => exact ⟨fun i _ => by rw [h], fun _ _ => rfl⟩
  split
  · next h =>
    have hspec := copy_spec (f := (· + 1)) (n := count.toNat) (m := mem) (a := dst) (b := src)
      fun j hj i hi => by
        simp only [iterate_add_one]
        bv_omega
    simpa only [iterate_add_one] using hspec
  · next hne h =>
    have hspec := copy_spec (f := (· - 1)) (n := count.toNat) (m := mem)
      (a := dst + (count - 1)) (b := src + (count - 1)) fun j hj i hi => by
        simp only [iterate_sub_one]
        bv_omega
    -- The byte at `i` is copied in the round that is as far from the last one.
    have hback (p : BitVec 64) (i : Nat) (hi : i < count.toNat) :
        p + (count - 1) - BitVec.ofNat 64 (count.toNat - 1 - i) = p + BitVec.ofNat 64 i := by
      bv_omega
    simp only [iterate_sub_one] at hspec
    refine ⟨fun i hi => ?_, fun p hp => hspec.2 p fun i hi => ?_⟩
    · have := hspec.1 (count.toNat - 1 - i) (by omega)
      rwa [hback dst i hi, hback src i hi] at this
    · have := hp (count.toNat - 1 - i) (by omega)
      bv_omega

/-- Two bytes moved up by one: the byte in both ranges is read before it is written. -/
theorem memmove_moves_overlap : (memmove (·.setWidth 8) 1 0 2).2 2 = 1 :=
  (memmove_moves (·.setWidth 8) 1 0 2 (by decide) (by decide)).1 1 (by decide)

end VitalSE.Runtime
