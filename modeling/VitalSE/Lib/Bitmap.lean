import Mathlib.Data.List.DropRight
import VitalSE.Lib.Bits

/-!
# Bitmaps

A list of words read as one row of bits. Past the end of the list every bit is
set, so a bitmap may grow by words of ones, and words of ones at its end may be
cut off, without any change to the row.
-/

namespace Bitmap

open BitVec

variable {w : Nat} {words : List (BitVec w)} {i j loc s : Nat}
  {words' : List (BitVec w)}

/-- A word of the map. Behind its end all bits are set. -/
def word (words : List (BitVec w)) (j : Nat) : BitVec w := words.getD j (allOnes w)

/-- A bit of the map. -/
def bit (words : List (BitVec w)) (i : Nat) : Bool :=
  (word words (i / w)).getLsbD (i % w)

/-- The positions of the bits that are not set. -/
def zeros (words : List (BitVec w)) : Finset Nat :=
  (Finset.range (words.length * w)).filter fun i => bit words i = false

theorem word_eq : word words j = words[j]?.getD (allOnes w) := List.getD_eq_getElem?_getD

theorem word_of_length_le (hj : words.length ≤ j) : word words j = allOnes w := by
  rw [word_eq, List.getElem?_eq_none hj]
  rfl

theorem word_set {k : Nat} {x : BitVec w} (hj : j < words.length) :
    word (words.set j x) k = if k = j then x else word words k := by
  rw [word_eq, word_eq]
  by_cases hk : k = j
  · subst hk
    rw [List.getElem?_set_self hj, if_pos rfl]
    rfl
  · rw [List.getElem?_set_ne (Ne.symm hk), if_neg hk]

theorem word_append_allOnes (words : List (BitVec w)) (n j : Nat) :
    word (words ++ List.replicate n (allOnes w)) j = word words j := by
  rw [word_eq, word_eq]
  rcases Nat.lt_or_ge j words.length with hj | hj
  · rw [List.getElem?_append_left hj]
  · rw [List.getElem?_append_right hj, List.getElem?_eq_none hj, List.getElem?_replicate]
    split
    · rfl
    · rfl

theorem word_take {n : Nat} (hones : ∀ j, n ≤ j → word words j = allOnes w) (j : Nat) :
    word (words.take n) j = word words j := by
  rcases Nat.lt_or_ge j n with hj | hj
  · rw [word_eq, word_eq, List.getElem?_take_of_lt hj]
  · rw [hones j hj]
    apply word_of_length_le
    rw [List.length_take]
    omega

theorem lt_of_bit_eq_false (hw : 0 < w) (hi : bit words i = false) : i / w < words.length := by
  by_contra hle
  have hmod := Nat.mod_lt i hw
  unfold bit at hi
  rw [word_of_length_le (by omega)] at hi
  simp [hmod] at hi

theorem mem_zeros (hw : 0 < w) : i ∈ zeros words ↔ bit words i = false := by
  unfold zeros
  rw [Finset.mem_filter, Finset.mem_range]
  constructor
  · exact fun h => h.2
  · intro h
    exact ⟨(Nat.div_lt_iff_lt_mul hw).mp (lt_of_bit_eq_false hw h), h⟩

theorem zeros_congr (hw : 0 < w) (h : ∀ j, word words' j = word words j) :
    zeros words' = zeros words := by
  ext i
  rw [mem_zeros hw, mem_zeros hw, bit, bit, h]

/-! ## Words to pass over -/

theorem word_drop {n : Nat} : word (words.drop n) j = word words (n + j) := by
  rw [word_eq, word_eq, List.getElem?_drop]

theorem takeWhile_zero : (∀ j < (words.takeWhile (· = 0)).length, word words j = 0) ∧
      ((words.takeWhile (· = 0)).length < words.length →
        word words (words.takeWhile (· = 0)).length ≠ 0) := by
  induction words with
  | nil => exact ⟨fun j hj => absurd hj (Nat.not_lt_zero _), fun h => absurd h (Nat.not_lt_zero _)⟩
  | cons x words ih =>
    by_cases hx : x = 0
    · rw [List.takeWhile_cons_of_pos (by simp [hx]), List.length_cons]
      refine ⟨fun j hj => ?_, fun hlt => ih.2 (by simpa using hlt)⟩
      cases j with
      | zero => exact hx
      | succ j => exact ih.1 j (by omega)
    · rw [List.takeWhile_cons_of_neg (by simpa using hx)]
      exact ⟨fun j hj => absurd hj (Nat.not_lt_zero _), fun _ => hx⟩

theorem word_concat {x : BitVec w} :
    word (words ++ [x]) j = if j = words.length then x else word words j := by
  rw [word_eq, word_eq]
  rcases Nat.lt_trichotomy j words.length with h | h | h
  · rw [List.getElem?_append_left h, if_neg (by omega)]
  · rw [if_pos h, h]
    simp
  · rw [if_neg (by omega), List.getElem?_eq_none (by simp; omega),
      List.getElem?_eq_none (by omega)]

theorem rdropWhile_allOnes {p : BitVec w → Bool} (hp : ∀ x, p x = true ↔ x = allOnes w)
    (words : List (BitVec w)) : (∀ j, (words.rdropWhile p).length ≤ j → word words j = allOnes w) ∧
      ∀ j, (words.rdropWhile p).length = j + 1 → word words j ≠ allOnes w := by
  induction words using List.reverseRecOn with
  | nil => exact ⟨fun j _ => word_of_length_le (Nat.zero_le j), fun j hj => nomatch hj⟩
  | append_singleton words x ih =>
    by_cases hx : p x = true
    · rw [List.rdropWhile_concat_pos _ _ _ hx]
      have hle := (List.rdropWhile_prefix p words).length_le
      refine ⟨fun j hj => ?_, fun j hj => ?_⟩
      · rw [word_concat]
        split
        · exact (hp x).mp hx
        · exact ih.1 j hj
      · rw [word_concat, if_neg (by omega)]
        exact ih.2 j hj
    · rw [List.rdropWhile_concat_neg _ _ _ hx, List.length_append]
      refine ⟨fun j hj => word_of_length_le (by simpa using hj), fun j hj => ?_⟩
      have hj : j = words.length := by simpa using hj.symm
      rw [word_concat, if_pos hj]
      exact fun h => hx ((hp x).mpr h)

/-! ## Turning one bit over -/

theorem getLsbD_xor_mask (x : BitVec w) (hs : s < w) (i : Nat) :
    (x ^^^ (1#w <<< s)).getLsbD i = if i = s then !x.getLsbD s else x.getLsbD i := by
  rw [← BitVec.twoPow_eq, getLsbD_xor, getLsbD_twoPow]
  by_cases hi : i = s
  · subst hi
    simp [hs]
  · simp [hi, Ne.symm hi]

/-- The position `loc * w + s` names bit `s` of word `loc`. -/
theorem div_mod_iff (hs : s < w) : i = loc * w + s ↔ i / w = loc ∧ i % w = s := by
  rw [Nat.div_mod_unique (Nat.zero_lt_of_lt hs), Nat.mul_comm]
  omega

theorem bit_add (hs : s < w) : bit words (loc * w + s) = (word words loc).getLsbD s := by
  obtain ⟨hdiv, hmod⟩ := (div_mod_iff hs).mp (rfl : loc * w + s = loc * w + s)
  unfold bit
  rw [hdiv, hmod]

section

variable (hloc : loc < words.length) (hs : s < w)

include hloc hs

theorem bit_turn (i : Nat) :
    bit (words.set loc (word words loc ^^^ (1#w <<< s))) i =
      if i = loc * w + s then !bit words (loc * w + s) else bit words i := by
  obtain ⟨hdiv, hmod⟩ := (div_mod_iff hs).mp (rfl : loc * w + s = loc * w + s)
  unfold bit
  rw [word_set hloc, hdiv, hmod]
  by_cases hi : i / w = loc
  · rw [if_pos hi, getLsbD_xor_mask _ hs, hi]
    by_cases hm : i % w = s
    · rw [if_pos hm, if_pos ((div_mod_iff hs).mpr ⟨hi, hm⟩)]
    · rw [if_neg hm, if_neg fun h => hm ((div_mod_iff hs).mp h).2]
  · rw [if_neg hi, if_neg fun h => hi ((div_mod_iff hs).mp h).1]

theorem zeros_clear (hset : bit words (loc * w + s) = true) :
    zeros (words.set loc (word words loc ^^^ (1#w <<< s))) =
      insert (loc * w + s) (zeros words) := by
  have hw : 0 < w := Nat.zero_lt_of_lt hs
  ext i
  rw [Finset.mem_insert, mem_zeros hw, mem_zeros hw, bit_turn hloc hs, hset]
  split
  · next h => simp [h]
  · next h => simp [h]

theorem zeros_set (hclear : bit words (loc * w + s) = false) :
    zeros (words.set loc (word words loc ^^^ (1#w <<< s))) = (zeros words).erase (loc * w + s) := by
  have hw : 0 < w := Nat.zero_lt_of_lt hs
  ext i
  rw [Finset.mem_erase, mem_zeros hw, mem_zeros hw, bit_turn hloc hs, hclear]
  split
  · next h => simp [h]
  · next h => simp [h]

end

/-! ## The lowest bit that is set -/

/-- The lowest bit of the first word that is not zero is the lowest of the row. -/
theorem lowest (hzero : ∀ j < loc, word words j = 0) (hs : IsLowest (word words loc) s)
    : bit words (loc * w + s) = true ∧ ∀ i < loc * w + s, bit words i = false := by
  have hlt := hs.lt
  have hw : 0 < w := Nat.zero_lt_of_lt hlt
  constructor
  · rw [bit_add hlt]
    exact hs.set
  · intro i hi
    unfold bit
    rcases Nat.lt_trichotomy (i / w) loc with h | h | h
    · rw [hzero _ h]
      simp
    · apply h ▸ hs.above
      have hsum := Nat.div_add_mod i w
      rw [h, Nat.mul_comm] at hsum
      omega
    · have hle := Nat.mul_le_mul_right w (Nat.succ_le_of_lt h)
      have hsum := Nat.div_mul_le_self i w
      rw [Nat.succ_mul] at hle
      omega

end Bitmap
