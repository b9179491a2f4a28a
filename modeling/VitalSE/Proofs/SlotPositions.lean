import Mathlib.Data.Nat.Bitwise
import VitalSE.KDAlloc.SlotAllocator

/-!
# Where the slots of a bin are

A slot of layer `k` lies at an odd multiple of the bin's size over `2 ^ (k + 1)`,
so its position tells the layer, and two slots are further apart than the finer
of their layers is wide.
-/

namespace VitalSE.SlotAllocator

theorem countTrailingZeroes_eq {x : BitVec 64} {k : Nat} (h : x.IsLowest k) :
    countTrailingZeroes x = .ok k := by
  have hx : x ≠ 0 := by
    intro hx
    rw [hx] at h
    simpa using h.set
  have hfind : (List.range 64).find? x.getLsbD = some k :=
    List.find?_range_eq_some.mpr ⟨h.set, List.mem_range.mpr h.lt,
      fun j hj => by simp [h.above j hj]⟩
  unfold countTrailingZeroes assert
  rw [if_pos hx, hfind]
  rfl

/-! ## The layers -/

theorem two_pow_xor {k r : Nat} (hr : r < 2 ^ k) : 2 ^ k ^^^ r = 2 ^ k + r := by
  rw [← Nat.div_add_mod (2 ^ k ^^^ r) (2 ^ k), Nat.xor_div_two_pow, Nat.xor_mod_two_pow,
    Nat.div_self (Nat.two_pow_pos k), Nat.mod_self, Nat.div_eq_of_lt hr, Nat.mod_eq_of_lt hr,
    Nat.xor_zero, Nat.zero_xor, Nat.mul_one]

/-- The place in its layer: even indices from the left, odd ones from the right. -/
def temper (layerSlots layerIndex : Nat) : Nat :=
  if layerIndex % 2 = 0 then layerIndex / 2 else layerSlots - 1 - layerIndex / 2

/-- The inverse of the tempering. -/
def untemper (layerSlots layerIndex : Nat) : Nat :=
  if layerIndex < (layerSlots + 1) / 2 then layerIndex * 2
  else (layerSlots - 1 - layerIndex) * 2 + 1

theorem temper_lt {n i : Nat} (hi : i < n) : temper n i < n := by
  unfold temper
  split <;> omega

theorem untemper_temper {n i : Nat} (hi : i < n) : untemper n (temper n i) = i := by
  unfold untemper temper
  split
  · rw [if_pos (by omega)]
    omega
  · rw [if_neg (by omega)]
    omega

namespace Control

variable {control : Control} {i index j : Nat}

/-- The layer of an index, counted from 0, and the rest of the index. -/
def layer (index : Nat) : Nat := (index + 1).log2

/-- The slot is smaller than its share of the bin: there is a red zone. -/
def HasRoom (control : Control) (index : Nat) : Prop :=
  control.slotSize < control.size / 2 ^ (layer index + 1)

instance (index : Nat) : Decidable (control.HasRoom index) :=
  inferInstanceAs (Decidable (_ < _))

/-- The place of the slot in its layer. -/
def place (index : Nat) : Nat :=
  temper (2 ^ layer index) (index + 1 - 2 ^ layer index)

/-- The offset of the slot in the bin. -/
def position (control : Control) (index : Nat) : Nat :=
  control.size / 2 ^ (layer index + 1) * (place index * 2 + 1)

theorem layer_le (index : Nat) : 2 ^ layer index ≤ index + 1 :=
  Nat.log2_self_le (by omega)

theorem lt_layer (index : Nat) : index + 1 < 2 ^ (layer index + 1) := Nat.lt_log2_self

theorem layer_mono (h : i ≤ j) : layer i ≤ layer j :=
  (Nat.le_log2 (by omega)).mpr ((layer_le i).trans (by omega))

theorem HasRoom.mono (h : i ≤ j) (hj : control.HasRoom j) : control.HasRoom i := by
  refine lt_of_lt_of_le hj ?_
  exact Nat.div_le_div_left (Nat.pow_le_pow_right (by omega) (by
    have := layer_mono h
    omega)) (by positivity)

theorem index_eq (index : Nat) : ∃ rest < 2 ^ layer index, index + 1 = 2 ^ layer index + rest := by
  have hle := layer_le index
  have hlt := lt_layer index
  rw [Nat.pow_succ] at hlt
  exact ⟨index + 1 - 2 ^ layer index, by omega, by omega⟩

theorem place_lt (index : Nat) : place index < 2 ^ layer index := by
  obtain ⟨rest, hrest, heq⟩ := index_eq index
  apply temper_lt
  omega

/-- The one assertion that can fail is that there is a red zone. -/
theorem convertIndexToPosition_eq (index : Nat) :
    control.convertIndexToPosition index =
      if control.HasRoom index then .ok (control.position index)
      else .error (.assertion "Zero (or below) red zone size!") := by
  obtain ⟨rest, hrest, heq⟩ := index_eq index
  have hplace := place_lt index
  unfold convertIndexToPosition
  unfold position
  unfold place at hplace ⊢
  simp only [Nat.add_sub_cancel, Nat.shiftLeft_eq, Nat.one_mul, Nat.shiftRight_eq_div_pow]
  rw [show (index + 1).log2 = layer index from rfl]
  by_cases hroom : control.HasRoom index
  · have hxor : (index + 1) ^^^ 2 ^ layer index = index + 1 - 2 ^ layer index := by
      rw [heq, ← two_pow_xor hrest, Nat.xor_comm, ← Nat.xor_assoc, Nat.xor_self,
        Nat.zero_xor, two_pow_xor hrest]
      omega
    have hand : (index + 1) &&& 2 ^ layer index ≠ 0 := by
      rw [Nat.and_two_pow, layer, Nat.testBit_log2 (by omega)]
      simp
    have hlt : index + 1 - 2 ^ layer index < 2 ^ layer index := by omega
    rw [if_pos hroom, hxor, Abort.assert_ok (c := control.size / _ > _) hroom,
      Abort.assert_ok hand, Abort.assert_ok hlt]
    show (Abort.assert (temper _ _ < _) _ >>= fun _ => _) = _
    rw [Abort.assert_ok hplace]
    rfl
  · rw [if_neg hroom, Abort.assert_error (c := control.size / _ > _) hroom]
    rfl

/-! ## Bins of a power of two -/

/-- What `initialize` checks of a bin, and that it can be addressed. -/
structure PowerOfTwo (control : Control) (m : Nat) : Prop where
  size_eq : control.size = 2 ^ m
  addressable : m < 64

variable {m : Nat}

/-- A word without its lowest set bit is zero only if that is its only bit. -/
theorem exists_powerOfTwo {baseAddress size slotSize quarantineSize : Nat} {unlimited : Bool}
    (hsize : size < 2 ^ 64) (h : Control.initialize baseAddress size slotSize unlimited
      quarantineSize = .ok control) : ∃ m, control.PowerOfTwo m := by
  unfold Control.initialize Abort.assert at h
  split at h
  · next hpower =>
    cases h
    obtain ⟨m, rfl⟩ := (Nat.and_sub_one_eq_zero_iff_isPowerOfTwo (by omega)).mp hpower.2
    exact ⟨m, rfl, (Nat.pow_lt_pow_iff_right (by omega)).mp hsize⟩
  · cases h

section

variable (hp : control.PowerOfTwo m) (h : control.HasRoom index)

include hp h

theorem HasRoom.lt : layer index < m := by
  by_contra hle
  have hlt : control.size < 2 ^ (layer index + 1) := by
    rw [hp.size_eq]
    exact Nat.pow_lt_pow_right (by omega) (by omega)
  unfold HasRoom at h
  rw [Nat.div_eq_of_lt hlt] at h
  omega

/-- The width of the layer's share. -/
theorem HasRoom.share : control.size / 2 ^ (layer index + 1) = 2 ^ (m - layer index - 1) := by
  have hlt := h.lt hp
  rw [hp.size_eq, Nat.pow_div (by omega) (by omega), Nat.sub_sub]

theorem HasRoom.slotSize_lt : control.slotSize < 2 ^ (m - layer index - 1) := by
  rw [← h.share hp]
  exact h

theorem HasRoom.position_eq :
    control.position index = 2 ^ (m - layer index - 1) * (place index * 2 + 1) := by
  unfold position
  rw [h.share hp]

/-- The slot and its share of the bin lie inside of the bin. -/
theorem HasRoom.position_add : 2 ^ (m - layer index - 1) ≤ control.position index ∧
      control.position index + 2 ^ (m - layer index - 1) ≤ control.size := by
  have hlt := h.lt hp
  have hplace := place_lt index
  have hsize : control.size = 2 ^ (m - layer index - 1) * (2 ^ layer index * 2) := by
    rw [hp.size_eq, ← Nat.pow_succ, ← Nat.pow_add]
    congr 1
    omega
  rw [h.position_eq hp, hsize]
  constructor
  · exact Nat.le_mul_of_pos_right _ (by omega)
  · rw [← Nat.mul_succ]
    exact Nat.mul_le_mul_left _ (by omega)

theorem index_lt_size : index < 2 ^ 63 := by
  have hlt := h.lt hp
  have hm := hp.addressable
  have hindex := lt_layer index
  have hle : 2 ^ (layer index + 1) ≤ 2 ^ 63 := Nat.pow_le_pow_right (by omega) (by omega)
  omega

end

theorem isLowest_odd {a t : Nat} (hlt : 2 ^ a * (t * 2 + 1) < 2 ^ 64) :
    (BitVec.ofNat 64 (2 ^ a * (t * 2 + 1))).IsLowest a := by
  have hbit (i : Nat) : (BitVec.ofNat 64 (2 ^ a * (t * 2 + 1))).getLsbD i =
      (2 ^ a * (t * 2 + 1)).testBit i := by
    rw [← BitVec.testBit_toNat, BitVec.toNat_ofNat, Nat.mod_eq_of_lt hlt]
  constructor
  · rw [hbit, Nat.testBit_two_pow_mul]
    simp
  · intro i hi
    rw [hbit, Nat.testBit_two_pow_mul]
    simp [hi]

theorem convertPositionToIndex_position (hp : control.PowerOfTwo m) (h : control.HasRoom index) :
    control.convertPositionToIndex (control.position index) = .ok index := by
  obtain ⟨rest, hrest, heq⟩ := index_eq index
  have hlt := h.lt hp
  have hm := hp.addressable
  have hplace := place_lt index
  have hsize : control.size < 2 ^ 64 := by
    rw [hp.size_eq]
    exact Nat.pow_lt_pow_right (by omega) hm
  have hinside : control.position index < 2 ^ 64 :=
    ((Nat.le_add_right _ _).trans (h.position_add hp).2).trans_lt hsize
  have hodd : control.size = 2 ^ m * (0 * 2 + 1) := by
    rw [hp.size_eq]
    omega
  have hzeroes := countTrailingZeroes_eq (isLowest_odd (a := m - layer index - 1)
    (t := place index) (by rw [← h.position_eq hp]; exact hinside))
  have hsizeZeroes := countTrailingZeroes_eq (isLowest_odd (a := m) (t := 0)
    (by rw [← hodd]; exact hsize))
  have hshift : control.position index >>> (m - layer index - 1 + 1) = place index := by
    rw [h.position_eq hp, Nat.shiftRight_eq_div_pow, Nat.pow_succ,
      Nat.mul_div_mul_left _ _ (by positivity)]
    omega
  have huntemper : untemper (2 ^ layer index) (place index) = rest := by
    unfold place
    rw [untemper_temper (by omega)]
    omega
  rw [← h.position_eq hp] at hzeroes
  rw [← hodd] at hsizeZeroes
  unfold convertPositionToIndex
  rw [hzeroes, hsizeZeroes]
  show (if m ≤ m - layer index - 1 then _ else _) = _
  rw [if_neg (by omega)]
  simp only [show m - (m - layer index - 1) - 1 = layer index by omega, Nat.shiftLeft_eq,
    Nat.one_mul, hshift]
  rw [Abort.assert_ok hplace]
  show (Abort.assert (untemper _ _ < _) _ >>= fun _ =>
    .ok ((2 ^ layer index ^^^ untemper (2 ^ layer index) (place index)) - 1)) = _
  rw [huntemper, Abort.assert_ok hrest, two_pow_xor hrest, ← heq]
  rfl

theorem position_injective (hp : control.PowerOfTwo m) (hi : control.HasRoom i)
    (hj : control.HasRoom j) (h : control.position i = control.position j) : i = j := by
  have heq := convertPositionToIndex_position hp hi
  rw [h, convertPositionToIndex_position hp hj] at heq
  exact (Except.ok.inj heq).symm

/-- Both positions are multiples of the finer share, which is wider than a slot. -/
theorem position_apart (hp : control.PowerOfTwo m) (hi : control.HasRoom i)
    (hj : control.HasRoom j) (hij : control.position i < control.position j) :
    control.position i + control.slotSize < control.position j := by
  obtain ⟨a, hslot, hdi, hdj⟩ : ∃ a, control.slotSize < 2 ^ a ∧
      2 ^ a ∣ control.position i ∧ 2 ^ a ∣ control.position j := by
    have hdi : 2 ^ (m - layer i - 1) ∣ control.position i := ⟨_, hi.position_eq hp⟩
    have hdj : 2 ^ (m - layer j - 1) ∣ control.position j := ⟨_, hj.position_eq hp⟩
    rcases le_total (m - layer i - 1) (m - layer j - 1) with hle | hle
    · exact ⟨_, hi.slotSize_lt hp, hdi, (Nat.pow_dvd_pow 2 hle).trans hdj⟩
    · exact ⟨_, hj.slotSize_lt hp, (Nat.pow_dvd_pow 2 hle).trans hdi, hdj⟩
  have hle := Nat.le_of_dvd (by omega) (Nat.dvd_sub hdj hdi)
  omega

end Control

end VitalSE.SlotAllocator
