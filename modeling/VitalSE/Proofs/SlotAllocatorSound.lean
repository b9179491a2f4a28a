import Mathlib.Data.List.ReduceOption
import VitalSE.Proofs.SlotPositions

/-!
# The slot allocator is the naive one

The naive allocator hands out the lowest slot that is not in use, and a freed slot
goes through a line of fixed length before it is out of use. The fingers bound the
search for that slot from both sides, the bitmap grows by words of ones, which are
free slots that no one has asked for, and data is copied before it is written to
while others refer to it. So what the allocators do is what as many naive ones do,
up to the assertion that a bin is not used up.
-/

namespace VitalSE

open RefCount
open Bitmap (word word_append_allOnes)
open Function (update update_self update_of_ne)

variable {control : SlotAllocator.Control} {self : Option Ref} {n index : Nat}

/-! ## The naive allocator -/

/-- The slots in use, and those of them that were freed, the oldest first. -/
structure Slots where
  used : Finset Nat
  waiting : List (Option Nat)

namespace Slots

/-- No slot is used. -/
def initial (control : SlotAllocator.Control) : Slots :=
  ⟨∅, List.replicate (control.quarantineSize - 1) none⟩

/-- The first slot that is not in use. -/
def lowestFree (slots : Slots) : Nat := Nat.find (Infinite.exists_notMem_finset slots.used)

/-- The slot is used. -/
def take (slots : Slots) (index : Nat) : Slots :=
  { slots with used := insert index slots.used }

/-- The slot goes to the end of the line, and the first one leaves it. -/
def free (slots : Slots) (index : Nat) : Slots :=
  match slots.waiting ++ [some index] with
  | [] => slots
  | none :: waiting => { slots with waiting := waiting }
  | some oldest :: waiting => ⟨slots.used.erase oldest, waiting⟩

end Slots

/-- A naive allocator, and the slots that are in use and not freed. -/
structure NaiveOwner where
  slots : Slots
  live : List Nat

/-- One naive allocator for each. -/
abbrev NaiveOwners (n : Nat) := Fin n → NaiveOwner

namespace NaiveOwners

open SlotAllocator (Control)

/-- No allocator has a block. -/
def create (control : Control) : NaiveOwners n := fun _ => ⟨.initial control, []⟩

/-- An operation of one of the allocators. -/
def step (control : Control) (s : NaiveOwners n) : SlotOp n → Except Abort (NaiveOwners n)
  | .allocate i =>
    let index := (s i).slots.lowestFree
    if control.HasRoom index then
      .ok (update s i ⟨(s i).slots.take index, index :: (s i).live⟩)
    else .error (.assertion "Zero (or below) red zone size!")
  | .deallocate i k =>
    match (s i).live[k]? with
    | none => .ok s
    | some index =>
      .ok (update s i ⟨(s i).slots.free index, (s i).live.eraseIdx k⟩)
  | .assign i j => .ok (update s i (s j))
  | .destroy i => .ok (update s i ⟨.initial control, []⟩)

/-- A run of operations. -/
def run (control : Control) (ops : List (SlotOp n)) : Except Abort (NaiveOwners n) :=
  ops.foldlM (step control) (create control)

end NaiveOwners

namespace SlotAllocator

open BitVec (allOnes)

variable {m : Nat}

/-! ## What the data stand for -/

/-- The offsets in quarantine, with the places that are still empty. -/
def waiting (data : Data) : List (Option Nat) :=
  (data.quarantine.map RingBuffer.contents).getD []

/-- No used word is before the first finger, and no used one is after the last. -/
structure Holds (control : Control) (slots : Slots) (data : Data) : Prop where
  used : Bitmap.zeros data.bitmap = slots.used
  waiting_eq : waiting data = slots.waiting.map (Option.map control.position)
  first : ∀ j < data.firstFreeFinger, word data.bitmap j = 0
  first_le : data.firstFreeFinger ≤ data.capacity
  last : ∀ j : Nat, data.lastUsedFinger < j → word data.bitmap j = allOnes 64
  last_ge : -1 ≤ data.lastUsedFinger
  last_lt : data.lastUsedFinger < data.capacity
  small : data.capacity ≤ 2 ^ 58

/-- The slots in use have a red zone. -/
def Slots.Roomy (control : Control) (slots : Slots) : Prop :=
  ∀ i ∈ slots.used, control.HasRoom i

variable {slots : Slots} {data : Data} {loc : Nat}

theorem Holds.mem_used (h : Holds control slots data) {i : Nat} :
    i ∈ slots.used ↔ Bitmap.bit data.bitmap i = false := by
  rw [← h.used, Bitmap.mem_zeros (by omega)]

/-- Data that stand for the same slots have the same words. -/
theorem Holds.word_eq {data' : Data} (h : Holds control slots data)
    (h' : Holds control slots data') (j : Nat) : word data.bitmap j = word data'.bitmap j := by
  apply BitVec.eq_of_getLsbD_eq
  intro k hk
  rw [← Bitmap.bit_add hk, ← Bitmap.bit_add hk, ← Bool.not_inj_iff, Bool.eq_iff_iff,
    Bool.not_eq_true', Bool.not_eq_true', ← h.mem_used, ← h'.mem_used]

/-- A word with a zero has an index in use, and those are not large. -/
theorem Holds.word_lt (h : Holds control slots data) (hp : control.PowerOfTwo m)
    (hroom : Slots.Roomy control slots) {j : Nat}
    (hj : word data.bitmap j ≠ allOnes 64) : j < 2 ^ 57 := by
  obtain ⟨k, hk, hbit⟩ : ∃ k < 64, (word data.bitmap j).getLsbD k = false := by
    by_contra hno
    push Not at hno
    refine hj (BitVec.eq_of_getLsbD_eq fun k hk => ?_)
    rw [BitVec.getLsbD_allOnes, decide_eq_true hk]
    simpa using hno k hk
  have hused : j * 64 + k ∈ slots.used := by
    rw [h.mem_used, Bitmap.bit_add hk]
    exact hbit
  have hlt := Control.index_lt_size hp (hroom _ hused)
  omega

theorem zero_ne_allOnes : (0 : BitVec 64) ≠ allOnes 64 := by decide

theorem not_eq_zero_iff {word : BitVec 64} : ~~~word = 0 ↔ word = allOnes 64 := by
  rw [show (0 : BitVec 64) = ~~~(allOnes 64) by decide]
  exact ⟨fun h => BitVec.not_inj.mp h, fun h => by rw [h]⟩

/-! ## The fingers -/

section

variable (h : Holds control slots data)

include h

theorem getFirstFree_spec :
    ∃ loc, getFirstFree data = .ok (loc, { data with firstFreeFinger := loc }) ∧
      (∀ j < loc, word data.bitmap j = 0) ∧ loc ≤ data.capacity ∧
      (loc < data.capacity → word data.bitmap loc ≠ 0) := by
  have hle := h.first_le
  obtain ⟨hzero, hstop⟩ := @Bitmap.takeWhile_zero _ (data.bitmap.drop data.firstFreeFinger)
  have hlen := (List.takeWhile_sublist (· = 0)
    (l := data.bitmap.drop data.firstFreeFinger)).length_le
  unfold Data.capacity at hle ⊢
  rw [List.length_drop] at hlen hstop
  simp only [Bitmap.word_drop] at hzero hstop
  unfold getFirstFree Data.capacity
  refine ⟨_, ?_, fun j hj => ?_, ?_, fun hlt => hstop (by omega)⟩
  · rw [Abort.assert_ok hle]
    show (Abort.assert _ _ >>= fun _ => _) = _
    rw [Abort.assert_ok (by omega)]
    rfl
  · rcases Nat.lt_or_ge j data.firstFreeFinger with hlt | hge
    · exact h.first j hlt
    · have := hzero (j - data.firstFreeFinger) (by omega)
      rwa [Nat.add_sub_cancel' hge] at this
  · omega

theorem Holds.move_first (hzero : ∀ j < loc, word data.bitmap j = 0)
    (hle : loc ≤ data.capacity) :
    Holds control slots { data with firstFreeFinger := loc } :=
  { h with first := hzero, first_le := hle }

/-- The finger moves to the last word with a zero. -/
theorem getLastUsed_spec :
    ∃ used : Nat, getLastUsed data =
        .ok ((used : Int) - 1, { data with lastUsedFinger := (used : Int) - 1 }) ∧
      used ≤ data.capacity ∧ (∀ j, used ≤ j → word data.bitmap j = allOnes 64) ∧
      ∀ j, used = j + 1 → word data.bitmap j ≠ allOnes 64 := by
  have hge := h.last_ge
  have hlt := h.last_lt
  have hones (x : BitVec 64) : decide (~~~x = 0) = true ↔ x = allOnes 64 := by
    rw [decide_eq_true_iff, not_eq_zero_iff]
  generalize hn : (data.lastUsedFinger + 1).toNat = n
  have htake (j : Nat) : word (data.bitmap.take n) j = word data.bitmap j :=
    Bitmap.word_take (fun j hj => h.last j (by omega)) j
  obtain ⟨hpast, hstop⟩ := Bitmap.rdropWhile_allOnes hones (data.bitmap.take n)
  have hlen := (List.rdropWhile_prefix (fun x => decide (~~~x = 0)) (data.bitmap.take n)).length_le
  rw [List.length_take] at hlen
  simp only [htake] at hpast hstop
  refine ⟨_, ?_, ?_, hpast, hstop⟩
  · unfold getLastUsed
    rw [Abort.assert_ok hge, Abort.assert_ok hlt, hn]
    show (Abort.assert _ _ >>= fun _ => _) = _
    rw [Abort.assert_ok (by omega)]
    rfl
  · show _ ≤ data.bitmap.length
    omega

theorem Holds.move_last {used : Nat} (hle : used ≤ data.capacity)
    (hones : ∀ j, used ≤ j → word data.bitmap j = allOnes 64) :
    Holds control slots { data with lastUsedFinger := (used : Int) - 1 } :=
  { h with
    last := fun j hj => hones j (by
      have hj : (used : Int) - 1 < j := hj
      omega)
    last_ge := by
      show -1 ≤ (used : Int) - 1
      omega
    last_lt := by
      show (used : Int) - 1 < data.capacity
      omega }

/-- The bitmap may get another length, as long as it reads the same. -/
theorem Holds.resize {bitmap : List (BitVec 64)}
    (hword : ∀ j, word bitmap j = word data.bitmap j)
    (hfirst : data.firstFreeFinger ≤ bitmap.length)
    (hlast : data.lastUsedFinger < bitmap.length) (hsmall : bitmap.length ≤ 2 ^ 58) :
    Holds control slots { data with bitmap := bitmap } where
  used := (Bitmap.zeros_congr (by omega) hword).trans h.used
  waiting_eq := h.waiting_eq
  first j hj := (hword j).trans (h.first j hj)
  first_le := hfirst
  last j hj := (hword j).trans (h.last j hj)
  last_ge := h.last_ge
  last_lt := hlast
  small := hsmall

/-- The words up to the last with a zero, and words of ones. -/
theorem Holds.copy {used capacity : Nat} (hle : used ≤ data.capacity)
    (hones : ∀ j, used ≤ j → word data.bitmap j = allOnes 64)
    (hlt : used < capacity) (hsmall : capacity ≤ 2 ^ 58) :
    let bitmap := data.bitmap.take used ++ List.replicate (capacity - used) (allOnes 64)
    Holds control slots { data with
        lastUsedFinger := (used : Int) - 1
        bitmap := bitmap } ∧
      word bitmap (bitmap.length - 1) = allOnes 64 ∧ 0 < bitmap.length := by
  intro bitmap
  have hlen : bitmap.length = capacity := by
    have hle : used ≤ data.bitmap.length := hle
    rw [List.length_append, List.length_take, List.length_replicate]
    omega
  have hword (j : Nat) : word bitmap j = word data.bitmap j := by
    rw [word_append_allOnes]
    exact Bitmap.word_take hones j
  refine ⟨(h.move_last hle hones).resize hword ?_ ?_ (by omega), ?_, by omega⟩
  · show data.firstFreeFinger ≤ bitmap.length
    by_contra hgt
    have hfirst := h.first used (by omega)
    rw [hones used (le_refl _)] at hfirst
    exact zero_ne_allOnes hfirst.symm
  · show (used : Int) - 1 < bitmap.length
    omega
  · rw [hword]
    exact hones _ (by omega)

end

theorem computeNextCapacity_eq (hn : n ≤ 2 ^ 57) :
    ∃ capacity, computeNextCapacity n = .ok capacity ∧ n < capacity ∧ capacity ≤ 2 ^ 58 := by
  unfold computeNextCapacity
  rw [Abort.assert_ok (by omega)]
  exact ⟨max 8 (n * 7 / 4), rfl, by omega, by omega⟩

/-! ## Sharing -/

theorem access_runs {α : Type} {p : HeapM Data α} {h : Heap Data} {Q : α → Heap Data → Prop}
    (hp : Runs p h Q) : Runs (access p) h Q := by
  obtain ⟨a, h', hrun, hQ⟩ := hp
  refine ⟨a, h', ?_, hQ⟩
  show Except.mapError _ (p h) = _
  rw [hrun]
  rfl

theorem assert_bind {α : Type} {c : Prop} [Decidable c] {message : String} {f : Unit → SlotM α}
    {h : Heap Data} {Q : α → Heap Data → Prop} (hc : c) (hf : Runs (f ()) h Q) :
    Runs ((liftM (Abort.assert c message) : SlotM Unit) >>= f) h Q :=
  .except_bind (Abort.assert_ok hc) hf

variable {h : Heap Data} {r : Ref} {rest : Multiset Ref}

/-- Data that others refer to are copied, and there is a free word in the copy. -/
theorem acquireData_runs (hp : control.PowerOfTwo m) (hroom : Slots.Roomy control slots)
    (ho : Owns (Holds control) h slots r rest) :
    Runs (acquireData r) h fun r' h' => Owns (Holds control) h' slots r' rest ∧ r' ∉ rest ∧
      Undisturbed (Holds control) h h' rest ∧ (r ∉ rest → r' = r ∧ h' = h) ∧
      (r ∈ rest → ∀ c, h'.content r' = some c →
        word c.bitmap (c.capacity - 1) = allOnes 64 ∧ 0 < c.capacity) := by
  obtain ⟨s, hcell, hholds, hcount⟩ := ho.cell
  refine .bind_eq (access_runs (cell_runs hcell)) ?_
  by_cases hmem : r ∈ rest
  · have hpos := Multiset.count_pos.mpr hmem
    rw [if_pos (by omega)]
    obtain ⟨used, hused, hle, hones, hword⟩ := getLastUsed_spec hholds
    have hbound : used ≤ 2 ^ 57 := by
      cases used with
      | zero => omega
      | succ j => exact hholds.word_lt hp hroom (hword j rfl)
    obtain ⟨capacity, hcapacity, hlt, hsmall⟩ := computeNextCapacity_eq hbound
    refine .except_bind hused (.bind (access_runs (write_tidy ho hcell fun b hb => ?_)) ?_)
    · exact hb.move_last hle hones
    intro _ h1 ⟨ho1, hcell1, hsame1⟩
    have hto : ((used : Int) - 1 + 1).toNat = used := by omega
    rw [hto]
    refine .except_bind hcapacity ?_
    obtain ⟨hcopy, hfree, hlen⟩ := hholds.copy hle hones hlt hsmall
    refine .bind (access_runs (alloc_alone ho1.1 hcopy)) ?_
    intro new h2 ⟨ho2, hnew, hcell2, hsame2⟩
    have hswap : Shared h2 (r ::ₘ new ::ₘ rest) := by
      rw [Multiset.cons_swap]
      exact ho2.1
    refine .bind (access_runs (decref_shared hswap)) fun _ h3 ⟨hshared3, hsame3⟩ => .pure ?_
    have hcontent := (hsame3 new (by simp)).trans (Heap.content_of_cells hcell2)
    refine ⟨⟨hshared3, _, hcontent, hcopy⟩, fun hin => hnew (Multiset.mem_cons_of_mem hin),
      ?_, fun hout => absurd hmem hout, fun _ c hc => ?_⟩
    · have hkept : Undisturbed (Holds control) h2 h3 rest :=
        .of_content_eq fun k hk => hsame3 k (Multiset.mem_cons_of_mem hk)
      have hgrown : Undisturbed (Holds control) h1 h2 rest :=
        fun k hk => hsame2 k (Multiset.mem_cons_of_mem hk)
      exact hsame1.trans (hgrown.trans hkept)
    · rw [hcontent] at hc
      cases hc
      exact ⟨hfree, hlen⟩
  · rw [if_neg (by rw [Multiset.count_eq_zero_of_notMem hmem] at hcount; omega)]
    refine assert_bind (by rw [Multiset.count_eq_zero_of_notMem hmem] at hcount; exact hcount)
      (.pure ⟨ho, hmem, .refl h rest, fun _ => ⟨rfl, rfl⟩, fun h => absurd h hmem⟩)

/-! ## Taking the lowest free slot -/

/-- One word is set, and the fingers are moved. -/
theorem Holds.setWord (hd : Holds control slots data) {used : Finset Nat} {x : BitVec 64}
    {first : Nat} {last : Int} (hloc : loc < data.capacity)
    (hused : Bitmap.zeros (data.bitmap.set loc x) = used)
    (hfirst : ∀ j < first, if j = loc then x = 0 else word data.bitmap j = 0)
    (hfirst_le : first ≤ data.capacity)
    (hlast : ∀ j : Nat, last < j →
      if j = loc then x = allOnes 64 else word data.bitmap j = allOnes 64)
    (hlast_ge : -1 ≤ last) (hlast_lt : last < data.capacity) :
    Holds control { slots with used := used } { data with
      bitmap := data.bitmap.set loc x
      firstFreeFinger := first
      lastUsedFinger := last } := by
  have hlen : (data.bitmap.set loc x).length = data.capacity := List.length_set
  refine ⟨hused, hd.waiting_eq, fun j hj => ?_, hfirst_le.trans hlen.ge, fun j hj => ?_,
    hlast_ge, hlast_lt.trans_le (Int.ofNat_le.mpr hlen.ge), hlen.trans_le hd.small⟩
  · rw [Bitmap.word_set hloc, apply_ite (· = 0)]
    exact hfirst j hj
  · rw [Bitmap.word_set hloc, apply_ite (· = allOnes 64)]
    exact hlast j hj

theorem Holds.take (hd : Holds control slots data) {s : Nat}
    (hloc : loc < data.capacity) (hzero : ∀ j < loc, word data.bitmap j = 0)
    (hs : (word data.bitmap loc).IsLowest s) :
    slots.lowestFree = loc * 64 + s ∧
      Holds control (slots.take (loc * 64 + s)) { data with
        bitmap := data.bitmap.set loc (word data.bitmap loc ^^^ (1#64 <<< s))
        firstFreeFinger :=
          if word data.bitmap loc ^^^ (1#64 <<< s) = 0 ∧ data.firstFreeFinger = loc
          then loc + 1 else data.firstFreeFinger
        lastUsedFinger := if (loc : Int) > data.lastUsedFinger then (loc : Int)
          else data.lastUsedFinger } := by
  obtain ⟨hset, hbelow⟩ := Bitmap.lowest hzero hs
  have hfirst : data.firstFreeFinger ≤ loc := by
    by_contra hlt
    have hset := hs.set
    rw [hd.first loc (by omega)] at hset
    simp at hset
  have hle := hd.last_ge
  have hlt := hd.last_lt
  refine ⟨(Nat.find_eq_iff _).mpr ⟨fun hin => ?_,
    fun i hi hnot => hnot (hd.mem_used.mpr (hbelow i hi))⟩, ?_⟩
  · rw [hd.mem_used, hset] at hin
    cases hin
  · refine hd.setWord hloc ?_ (fun j hj => ?_) ?_ (fun j hj => ?_) ?_ ?_
    · rw [Bitmap.zeros_clear hloc hs.lt hset, hd.used]
    · split at hj
      · next hfull =>
        split
        · exact hfull.1
        · exact hzero j (by omega)
      · rw [if_neg (by omega)]
        exact hzero j (by omega)
    · split <;> omega
    · rw [if_neg (by split at hj <;> omega)]
      exact hd.last j (by split at hj <;> omega)
    · split <;> omega
    · split <;> omega

theorem setLowestToUsed_runs (hs : Shared h (r ::ₘ rest)) (halone : r ∉ rest)
    {cell : Cell Data} (hcell : h.cells r = some cell)
    (hd : Holds control slots cell.content) (hloc : loc < cell.content.capacity)
    (hzero : ∀ j < loc, word cell.content.bitmap j = 0) (hword : word cell.content.bitmap loc ≠ 0) :
    Runs (setLowestToUsed r loc) h fun p h' => p = (slots.lowestFree, r) ∧
      Owns (Holds control) h' (slots.take slots.lowestFree) r rest ∧
      Undisturbed (Holds control) h h' rest := by
  obtain ⟨s, hlow⟩ := BitVec.exists_isLowest hword
  obtain ⟨hindex, hholds⟩ := hd.take hloc hzero hlow
  have hrefs : cell.references = 1 := by
    rw [← Heap.references_of_cells hcell]
    exact hs.notMem_iff.mp halone
  have hmask : word cell.content.bitmap loc &&& (1#64 <<< s) = 1#64 <<< s := by
    rw [← BitVec.twoPow_eq, BitVec.and_twoPow, if_pos hlow.set]
  refine .bind_eq (access_runs (cell_runs hcell)) ?_
  refine assert_bind hrefs (assert_bind hloc ?_)
  refine .except_bind (a := s) (by rw [countTrailingZeroes_eq hlow]; rfl) (assert_bind hmask ?_)
  refine .bind (access_runs (write_alone hs halone hcell hholds)) ?_
  intro _ h' ⟨ho', _, hsame⟩
  rw [hindex]
  exact .pure ⟨rfl, ho', hsame⟩

theorem word_replicate_allOnes (n j : Nat) :
    word (List.replicate n (allOnes 64)) j = allOnes 64 := by
  rw [← List.nil_append (List.replicate n (allOnes 64)), word_append_allOnes]
  exact Bitmap.word_of_length_le (Nat.zero_le j)

theorem holds_initial (hn : n ≤ 2 ^ 58) :
    Holds control (.initial control) {
      firstFreeFinger := 0
      lastUsedFinger := -1
      quarantine := emptyQuarantine control
      bitmap := List.replicate n (allOnes 64) } where
  used := by
    apply Finset.eq_empty_of_forall_notMem
    intro i hi
    rw [Bitmap.mem_zeros (by omega)] at hi
    unfold Bitmap.bit at hi
    rw [word_replicate_allOnes, BitVec.getLsbD_allOnes] at hi
    simp [Nat.mod_lt i (by omega : 0 < 64)] at hi
  waiting_eq := by
    unfold waiting Slots.initial
    rw [List.map_replicate]
    show ((emptyQuarantine control).map RingBuffer.contents).getD [] = List.replicate _ none
    unfold emptyQuarantine
    split
    · exact RingBuffer.contents_replicate ..
    · next hzero =>
      rw [Nat.eq_zero_of_not_pos hzero]
      rfl
  first _ hj := absurd hj (Nat.not_lt_zero _)
  first_le := Nat.zero_le _
  last j _ := word_replicate_allOnes n j
  last_ge := le_refl _
  last_lt := by
    show (-1 : Int) < ((List.replicate n (allOnes 64)).length : Int)
    omega
  small := by
    show (List.replicate n (allOnes 64)).length ≤ _
    rw [List.length_replicate]
    exact hn

/-- What an allocator stands for; without data it has never been used. -/
def Stands (control : Control) (h : Heap Data) (slots : Slots) : Option Ref → Prop
  | none => slots = .initial control
  | some r => ∃ c, h.content r = some c ∧ Holds control slots c

theorem Stands.undisturbed {h' : Heap Data} (hs : Stands control h slots self)
    (hsame : Undisturbed (Holds control) h h' rest) (hself : ∀ r, self = some r → r ∈ rest) :
    Stands control h' slots self := by
  cases self with
  | none => exact hs
  | some r =>
    obtain ⟨c, hc, hholds⟩ := hs
    exact hsame r (hself r rfl) _ c hc hholds

/-- The others own the rest of the references. -/
def Sees (control : Control) (h : Heap Data) (slots : Slots) (rest : Multiset Ref)
    (self : Option Ref) : Prop :=
  Shared h (self.toList + rest) ∧ Stands control h slots self

/-- All words are in use, so their number is not large. -/
theorem Holds.grow (hd : Holds control slots data) (hp : control.PowerOfTwo m)
    (hroom : Slots.Roomy control slots)
    (hzero : ∀ j < data.capacity, word data.bitmap j = 0) :
    ∃ capacity, computeNextCapacity data.capacity = .ok capacity ∧
      data.capacity < capacity ∧ Holds control slots { data with
        bitmap := data.bitmap ++ List.replicate (capacity - data.capacity) (allOnes 64) } := by
  have hbound : data.capacity ≤ 2 ^ 57 := by
    by_contra hlt
    have hword := hd.word_lt hp hroom (j := 2 ^ 57) (by
      rw [hzero _ (by omega)]
      exact zero_ne_allOnes)
    omega
  obtain ⟨capacity, hcapacity, hlt, hsmall⟩ := computeNextCapacity_eq hbound
  have hlen : (data.bitmap ++ List.replicate (capacity - data.capacity) (allOnes 64)).length =
      capacity := by
    rw [List.length_append, List.length_replicate]
    exact Nat.add_sub_cancel' hlt.le
  have hfirst := hd.first_le
  have hlast := hd.last_lt
  exact ⟨capacity, hcapacity, hlt, hd.resize (word_append_allOnes _ _)
    (by omega) (by omega) (by omega)⟩

theorem setFirstFreeToUsed_runs (hp : control.PowerOfTwo m)
    (hroom : Slots.Roomy control slots) (hsees : Sees control h slots rest self) :
    Runs (setFirstFreeToUsed control self) h fun p h' => p.1 = slots.lowestFree ∧
      Owns (Holds control) h' (slots.take slots.lowestFree) p.2 rest ∧
      Undisturbed (Holds control) h h' rest := by
  cases self with
  | none =>
    obtain ⟨hs, rfl⟩ := hsees
    replace hs : Shared h rest := by
      rwa [Option.toList_none, Multiset.coe_nil, zero_add] at hs
    obtain ⟨capacity, hcapacity, hlt, hsmall⟩ := computeNextCapacity_eq (Nat.zero_le (2 ^ 57))
    refine .except_bind hcapacity (.bind (access_runs (alloc_alone hs (holds_initial hsmall))) ?_)
    rintro r h1 ⟨ho1, halone, hcell1, hsame1⟩
    refine (setLowestToUsed_runs ho1.1 halone hcell1 (holds_initial hsmall) ?_
      (fun j hj => absurd hj (Nat.not_lt_zero _)) ?_).imp ?_
    · show 0 < (List.replicate capacity (allOnes 64)).length
      rw [List.length_replicate]
      exact hlt
    · rw [word_replicate_allOnes]
      exact zero_ne_allOnes.symm
    · rintro _ h' ⟨rfl, ho', hsame⟩
      exact ⟨rfl, ho', hsame1.trans hsame⟩
  | some r =>
    replace hsees : Owns (Holds control) h slots r rest := hsees
    obtain ⟨cell, hcell, hd, hcount⟩ := hsees.cell
    obtain ⟨loc, hloc, hzero, hle, hstop⟩ := getFirstFree_spec hd
    refine .bind_eq (access_runs (cell_runs hcell)) ?_
    refine .except_bind hloc (.bind (access_runs (write_tidy hsees hcell fun b hb =>
      hb.move_first hzero hle)) ?_)
    rintro _ h1 ⟨ho1, hcell1, hsame1⟩
    have hd1 := hd.move_first hzero hle
    have hword : word cell.content.bitmap loc ≠ 0 := by
      rcases Nat.lt_or_ge loc cell.content.capacity with hlt | hge
      · exact hstop hlt
      · rw [Bitmap.word_of_length_le hge]
        exact zero_ne_allOnes.symm
    -- from here on the data with the finger moved
    generalize hdata : ({ cell.content with firstFreeFinger := loc } : Data) = data at *
    obtain ⟨hbitmap, hcapacity⟩ : cell.content.bitmap = data.bitmap ∧
        cell.content.capacity = data.capacity := by
      subst hdata
      exact ⟨rfl, rfl⟩
    rw [hbitmap] at hzero hword
    rw [hcapacity] at hle
    split
    · next hfull =>
      obtain ⟨rfl, hrefs⟩ := hfull
      have halone : r ∉ rest := Multiset.count_eq_zero.mp (by omega)
      obtain ⟨capacity, hnext, hlt, hgrown⟩ := hd1.grow hp hroom hzero
      refine .except_bind hnext (.bind (access_runs (write_alone ho1.1 halone hcell1 hgrown)) ?_)
      rintro _ h2 ⟨ho2, hcell2, hsame2⟩
      refine (setLowestToUsed_runs ho2.1 halone hcell2 hgrown ?_ (fun j hj => ?_) ?_).imp ?_
      · show _ < (_ ++ List.replicate _ _ : List (BitVec 64)).length
        rw [List.length_append, List.length_replicate]
        exact Nat.lt_add_of_pos_right (by omega)
      · exact (word_append_allOnes _ _ _).trans (hzero j hj)
      · show word (_ ++ List.replicate _ (allOnes 64)) _ ≠ 0
        rw [word_append_allOnes]
        exact hword
      · rintro _ h' ⟨rfl, ho', hsame⟩
        exact ⟨rfl, ho', hsame1.trans (hsame2.trans hsame)⟩
    · next hnot =>
      refine .bind (acquireData_runs hp hroom ho1) ?_
      rintro r2 h2 ⟨ho2, halone2, hsame2, hown, hshare⟩
      obtain ⟨cell2, hcell2, hd2, -⟩ := ho2.cell
      have hcontent2 := Heap.content_of_cells hcell2
      have hzero2 (j : Nat) (hj : j < loc) : word cell2.content.bitmap j = 0 :=
        (hd2.word_eq hd1 j).trans (hzero j hj)
      have hlt : loc < cell2.content.capacity := by
        by_cases hmem : r ∈ rest
        · obtain ⟨hones, hpos⟩ := hshare hmem _ hcontent2
          by_contra hge
          rw [hzero2 _ (by omega)] at hones
          exact zero_ne_allOnes hones
        · obtain ⟨rfl, rfl⟩ := hown hmem
          rw [hcell1] at hcell2
          cases hcell2
          rw [Multiset.count_eq_zero_of_notMem hmem] at hcount
          show loc < data.capacity
          omega
      refine .bind_eq (access_runs (read_runs hcontent2)) ?_
      refine assert_bind hlt ((setLowestToUsed_runs ho2.1 halone2 hcell2 hd2 hlt hzero2 ?_).imp ?_)
      · rw [hd2.word_eq hd1]
        exact hword
      · rintro _ h' ⟨rfl, ho', hsame⟩
        exact ⟨rfl, ho', hsame1.trans (hsame2.trans hsame)⟩

/-! ## Giving a slot back -/

theorem quarantine_runs (ho : Owns (Holds control) h slots r rest) (halone : r ∉ rest)
    (index : Nat) :
    ∃ oldest waiting, slots.waiting ++ [some index] = oldest :: waiting ∧
      Runs (quarantine r (control.position index)) h fun released h' =>
        released = oldest.map control.position ∧
        Owns (Holds control) h' { slots with waiting := waiting } r rest ∧
        Undisturbed (Holds control) h h' rest := by
  obtain ⟨cell, hcell, hd, hcount⟩ := ho.cell
  have hwaiting := hd.waiting_eq
  unfold SlotAllocator.waiting at hwaiting
  cases hring : cell.content.quarantine with
  | none =>
    rw [hring] at hwaiting
    have hnil : slots.waiting = [] := List.map_eq_nil_iff.mp hwaiting.symm
    refine ⟨some index, [], by rw [hnil]; rfl, .bind (access_runs (cell_runs hcell)) ?_⟩
    rintro _ _ ⟨rfl, rfl⟩
    rw [hring]
    refine .pure ⟨rfl, ?_, .refl h rest⟩
    rw [← hnil]
    exact ho
  | some ring =>
    rw [hring] at hwaiting
    obtain ⟨line, hline, hnew⟩ := ring.contents_exchange (some (control.position index))
    replace hwaiting : ring.contents = slots.waiting.map (Option.map control.position) := hwaiting
    rw [hline] at hwaiting
    obtain ⟨oldest, waiting, hslots, hreleased, rfl⟩ := List.map_eq_cons_iff.mp hwaiting.symm
    refine ⟨oldest, waiting ++ [some index], by rw [hslots]; rfl,
      .bind (access_runs (cell_runs hcell)) ?_⟩
    rintro _ _ ⟨rfl, rfl⟩
    rw [hring]
    rw [Multiset.count_eq_zero_of_notMem halone] at hcount
    refine assert_bind hcount ?_
    have hholds : Holds control { slots with waiting := waiting ++ [some index] }
        { cell.content with
          quarantine := some (ring.exchange (some (control.position index))).2 } := by
      refine { hd with waiting_eq := ?_ }
      show (ring.exchange _).2.contents = _
      rw [hnew, List.map_append]
      rfl
    refine .bind (access_runs (write_alone ho.1 halone hcell hholds)) ?_
    intro _ h' ⟨ho', _, hsame⟩
    exact .pure ⟨hreleased.symm, ho', hsame⟩

theorem Holds.loc_le (hd : Holds control slots data) (hused : index ∈ slots.used) :
    ((index / 64 : Nat) : Int) ≤ data.lastUsedFinger := by
  by_contra hlt
  rw [hd.mem_used] at hused
  unfold Bitmap.bit at hused
  rw [hd.last _ (by omega), BitVec.getLsbD_allOnes] at hused
  simp [Nat.mod_lt index (by omega : 0 < 64)] at hused

theorem Holds.free (hd : Holds control slots data) (hused : index ∈ slots.used) :
    let loc := index / 64
    let word := word data.bitmap loc ^^^ (1#64 <<< (index % 64))
    Holds control { slots with used := slots.used.erase index } { data with
      bitmap := data.bitmap.set loc word
      lastUsedFinger := if ~~~word = 0 ∧ (loc : Int) = data.lastUsedFinger then (loc : Int) - 1
        else data.lastUsedFinger
      firstFreeFinger := if loc < data.firstFreeFinger then loc else data.firstFreeFinger } := by
  intro loc word
  have hle : (loc : Int) ≤ data.lastUsedFinger := hd.loc_le hused
  have hlt := hd.last_lt
  have hge := hd.last_ge
  have hfirst := hd.first_le
  have hloc : loc < data.capacity := by omega
  have hmod := Nat.mod_lt index (by omega : 0 < 64)
  have hindex : loc * 64 + index % 64 = index := by omega
  refine hd.setWord hloc ?_ (fun j hj => ?_) ?_ (fun j hj => ?_) ?_ ?_
  · rw [Bitmap.zeros_set hloc hmod (by rw [hindex]; exact hd.mem_used.mp hused), hindex, hd.used]
  · rw [if_neg (by split at hj <;> omega)]
    exact hd.first j (by split at hj <;> omega)
  · split <;> omega
  · split at hj
    · next hones =>
      split
      · exact not_eq_zero_iff.mp hones.1
      · exact hd.last j (by omega)
    · rw [if_neg (by omega)]
      exact hd.last j hj
  · split <;> omega
  · split <;> omega

section

variable (hp : control.PowerOfTwo m) (hroom : Slots.Roomy control slots)
  (ho : Owns (Holds control) h slots r rest)

include hp hroom ho

theorem setFree_runs (halone : r ∉ rest) (hused : index ∈ slots.used) :
    Runs (setFree r index) h fun r' h' =>
      Owns (Holds control) h' { slots with used := slots.used.erase index } r' rest ∧
      Undisturbed (Holds control) h h' rest := by
  obtain ⟨cell, hcell, hd, -⟩ := ho.cell
  have hcontent := Heap.content_of_cells hcell
  refine .bind_eq (access_runs (read_runs hcontent)) ?_
  refine assert_bind (hd.loc_le hused) (assert_bind hd.last_lt ?_)
  refine .bind (acquireData_runs hp hroom ho) ?_
  intro r' h' ⟨_, _, _, hown, _⟩
  obtain ⟨rfl, rfl⟩ := hown halone
  refine .bind_eq (access_runs (read_runs hcontent)) ?_
  have hmask : word cell.content.bitmap (index / 64) &&& (1#64 <<< (index % 64)) = 0 := by
    rw [← BitVec.twoPow_eq, BitVec.and_twoPow]
    exact if_neg (Bool.eq_false_iff.mp (hd.mem_used.mp hused))
  refine assert_bind hmask (.bind (access_runs (write_alone ho.1 halone hcell (hd.free hused))) ?_)
  intro _ h' ⟨ho', _, hsame⟩
  exact .pure ⟨ho', hsame⟩

theorem deallocate_runs (hused : index ∈ slots.used)
    (hline : ∀ i, some i ∈ slots.waiting → i ∈ slots.used) :
    Runs (deallocate control (some r) (control.baseAddress + control.position index)) h
      fun r' h' => Owns (Holds control) h' (slots.free index) r' rest ∧
        Undisturbed (Holds control) h h' rest := by
  refine .bind (acquireData_runs hp hroom ho) ?_
  intro r1 h1 ⟨ho1, halone1, hsame1, _, _⟩
  obtain ⟨oldest, waiting, hwaiting, hrun⟩ := quarantine_runs ho1 halone1 index
  rw [Nat.add_sub_cancel_left]
  refine .bind hrun ?_
  rintro _ h2 ⟨rfl, ho2, hsame2⟩
  unfold Slots.free
  rw [hwaiting]
  cases oldest with
  | none => exact .pure ⟨ho2, hsame1.trans hsame2⟩
  | some i =>
    have hi : i ∈ slots.used := by
      have hmem : some i ∈ slots.waiting ++ [some index] := by
        rw [hwaiting]
        exact List.mem_cons_self ..
      rcases List.mem_append.mp hmem with hin | hin
      · exact hline i hin
      · cases List.mem_singleton.mp hin
        exact hused
    have hinside := (hroom i hi).position_add hp
    have hslot := (hroom i hi).slotSize_lt hp
    have hroom2 : Slots.Roomy control { slots with waiting := waiting } := hroom
    refine assert_bind (by omega) (.except_bind
      (Control.convertPositionToIndex_position hp (hroom i hi)) ?_)
    refine (setFree_runs hp hroom2 ho2 halone1 hi).imp ?_
    intro r3 h3 ⟨ho3, hsame3⟩
    exact ⟨ho3, hsame1.trans (hsame2.trans hsame3)⟩

end

/-! ## Copies -/

variable {owned : Multiset Ref}

theorem releaseData_runs (hs : Shared h (self.toList + rest)) :
    Runs (releaseData self) h fun _ h' =>
      Shared h' rest ∧ ∀ k ∈ rest, h'.content k = h.content k := by
  cases self with
  | none => exact .pure ⟨by simpa using hs, fun _ _ => rfl⟩
  | some r => exact access_runs (decref_shared hs)

theorem copy_runs {rhs : Option Ref} (hs : Shared h owned) (hrhs : ∀ r ∈ rhs, r ∈ owned) :
    Runs (copy rhs) h fun self h' => self = rhs ∧ Shared h' (self.toList + owned) ∧
      h'.content = h.content := by
  cases rhs with
  | none => exact .pure ⟨rfl, by simpa using hs, rfl⟩
  | some r =>
    refine .bind (access_runs (incref_shared hs (hrhs r rfl))) ?_
    rintro _ h' ⟨rfl, hs', hcontent⟩
    obtain ⟨c, hc⟩ := hs'.exists_content (Multiset.mem_cons_self r owned)
    obtain ⟨cell, hcell, -⟩ := Option.map_eq_some_iff.mp hc
    refine .bind_eq (access_runs (cell_runs hcell)) ?_
    refine assert_bind ?_ (.pure ⟨rfl, hs', hcontent⟩)
    rw [← Heap.references_of_cells hcell, hs'.references_cons]
    have hpos := Multiset.count_pos.mpr (hrhs r rfl)
    omega

end SlotAllocator

open SlotAllocator

/-! ## The naive allocators -/

variable {m : Nat}

/-- The slots that are in use or were freed, each once. -/
def NaiveOwner.taken (o : NaiveOwner) : List Nat := o.live ++ o.slots.waiting.reduceOption

/-- What is in use is live or waits, and nothing twice. -/
structure NaiveOwner.Valid (control : Control) (o : NaiveOwner) : Prop where
  room : Slots.Roomy control o.slots
  nodup : o.taken.Nodup
  used : ∀ i, i ∈ o.slots.used ↔ i ∈ o.taken

namespace NaiveOwner.Valid

variable {o : NaiveOwner}

theorem initial : Valid control ⟨.initial control, []⟩ := by
  have htaken : taken ⟨.initial control, []⟩ = [] := by
    show [] ++ (List.replicate _ none).reduceOption = []
    rw [List.reduceOption_replicate_none]
    rfl
  refine ⟨fun i hi => absurd hi (Finset.notMem_empty i), ?_, fun i => ?_⟩
  · rw [htaken]
    exact List.nodup_nil
  · rw [htaken]
    exact iff_of_false (Finset.notMem_empty i) List.not_mem_nil

theorem take (ho : o.Valid control) (hroom : control.HasRoom o.slots.lowestFree) :
    Valid control ⟨o.slots.take o.slots.lowestFree, o.slots.lowestFree :: o.live⟩ := by
  have hfree : o.slots.lowestFree ∉ o.slots.used :=
    Nat.find_spec (Infinite.exists_notMem_finset o.slots.used)
  refine ⟨fun i hi => ?_, ?_, fun i => ?_⟩
  · rcases Finset.mem_insert.mp hi with rfl | hi
    · exact hroom
    · exact ho.room i hi
  · show (o.slots.lowestFree :: o.taken).Nodup
    rw [ho.used] at hfree
    exact List.nodup_cons.mpr ⟨hfree, ho.nodup⟩
  · show i ∈ insert o.slots.lowestFree o.slots.used ↔ i ∈ o.slots.lowestFree :: o.taken
    rw [Finset.mem_insert, List.mem_cons, ho.used]

theorem free (ho : o.Valid control) {k : Nat} (hk : o.live[k]? = some index) :
    Valid control ⟨o.slots.free index, o.live.eraseIdx k⟩ := by
  obtain ⟨hlt, hget⟩ := List.getElem?_eq_some_iff.mp hk
  have hperm : o.taken.Perm
      (o.live.eraseIdx k ++ (o.slots.waiting ++ [some index]).reduceOption) := by
    rw [List.reduceOption_append]
    show (o.live ++ o.slots.waiting.reduceOption).Perm
      (o.live.eraseIdx k ++ (o.slots.waiting.reduceOption ++ [index]))
    have hlive := List.getElem_cons_eraseIdx_perm hlt
    rw [hget] at hlive
    refine (hlive.symm.append_right _).trans ?_
    rw [← List.append_assoc]
    exact (List.perm_append_singleton ..).symm
  unfold Slots.free
  cases hline : o.slots.waiting ++ [some index] with
  | nil => simp at hline
  | cons oldest waiting =>
    rw [hline] at hperm
    cases oldest with
    | none =>
      rw [List.reduceOption_cons_of_none] at hperm
      exact ⟨ho.room, hperm.nodup ho.nodup, fun i => (ho.used i).trans hperm.mem_iff⟩
    | some j =>
      rw [List.reduceOption_cons_of_some] at hperm
      have hperm := hperm.trans List.perm_middle
      have hnodup := List.nodup_cons.mp (hperm.nodup ho.nodup)
      refine ⟨fun i hi => ho.room i (Finset.mem_of_mem_erase hi), hnodup.2, fun i => ?_⟩
      rw [Finset.mem_erase, ho.used, hperm.mem_iff, List.mem_cons]
      constructor
      · rintro ⟨hne, heq | hi⟩
        · exact absurd heq hne
        · exact hi
      · intro hi
        exact ⟨fun heq => hnodup.1 (heq ▸ hi), .inr hi⟩

end NaiveOwner.Valid

/-! ## The simulation -/

namespace SlotOwners

/-- The references of all allocators but one. -/
def others (owners : Fin n → SlotOwner) (i : Fin n) : Multiset Ref :=
  ∑ j ∈ Finset.univ.erase i, ((owners j).data.toList : Multiset Ref)

theorem mem_others {owners : Fin n → SlotOwner} {i j : Fin n} (hij : j ≠ i) {r : Ref}
    (hr : (owners j).data = some r) : r ∈ others owners i := by
  refine Multiset.mem_sum.mpr ⟨j, Finset.mem_erase.mpr ⟨hij, Finset.mem_univ j⟩, ?_⟩
  rw [hr]
  exact Multiset.mem_coe.mpr (List.mem_singleton_self r)

/-- Every count is right, and every allocator stands for a naive one. -/
structure Agrees (control : Control) (s : SlotOwners n) (v : NaiveOwners n) : Prop where
  shared : Shared s.heap (∑ i, ((s.owners i).data.toList : Multiset Ref))
  stands : ∀ i, Stands control s.heap (v i).slots (s.owners i).data
  live : ∀ i, (s.owners i).live = (v i).live.map fun k => control.baseAddress + control.position k
  valid : ∀ i, (v i).Valid control

namespace Agrees

variable {s : SlotOwners n} {v : NaiveOwners n}

section

variable (ha : Agrees control s v)

include ha

theorem shared_at (i : Fin n) : Shared s.heap ((s.owners i).data.toList + others s.owners i) := by
  unfold others
  rw [Finset.add_sum_erase _ (fun j => ((s.owners j).data.toList : Multiset Ref))
    (Finset.mem_univ i)]
  exact ha.shared

/-- One allocator was worked on, and the others were not disturbed. -/
theorem set {i : Fin n} {h : Heap Data} {o : SlotOwner} {o' : NaiveOwner}
    (hs : Shared h (o.data.toList + others s.owners i))
    (hsame : Undisturbed (SlotAllocator.Holds control) s.heap h (others s.owners i))
    (hstands : Stands control h o'.slots o.data)
    (hlive : o.live = o'.live.map fun k => control.baseAddress + control.position k)
    (hvalid : o'.Valid control) : Agrees control (s.set h i o) (update v i o') := by
  have hcases (P : SlotOwner → NaiveOwner → Prop) (hi : P o o')
      (hrest : ∀ j ≠ i, P (s.owners j) (v j)) (j : Fin n) :
      P (update s.owners i o j) (update v i o' j) := by
    by_cases hj : j = i
    · subst hj
      rw [update_self, update_self]
      exact hi
    · rw [update_of_ne hj, update_of_ne hj]
      exact hrest j hj
  refine ⟨?_, hcases (fun a b => Stands control h b.slots a.data) hstands ?_,
    hcases (fun a b => a.live = b.live.map _) hlive fun j _ => ha.live j,
    hcases (fun _ b => b.Valid control) hvalid fun j _ => ha.valid j⟩
  · show Shared h (∑ j, ((update s.owners i o j).data.toList : Multiset Ref))
    rw [← Finset.add_sum_erase _ _ (Finset.mem_univ i), update_self,
      Finset.sum_congr rfl fun j hj => by rw [update_of_ne (Finset.ne_of_mem_erase hj)]]
    exact hs
  · intro j hj
    exact (ha.stands j).undisturbed hsame fun _ => mem_others hj

theorem allocate (hp : control.PowerOfTwo m) (i : Fin n) :
    match NaiveOwners.step control v (.allocate i) with
    | .ok v' => ∃ s', step control s (.allocate i) = .ok s' ∧ Agrees control s' v'
    | .error e => step control s (.allocate i) = .error e := by
  have hvalid := ha.valid i
  obtain ⟨p, h', hrun, hindex, ho, hsame⟩ :=
    setFirstFreeToUsed_runs hp hvalid.room ⟨ha.shared_at i, ha.stands i⟩
  obtain ⟨index, r⟩ := p
  obtain rfl : index = (v i).slots.lowestFree := hindex
  have hstep : step control s (.allocate i) =
      control.convertIndexToPosition (v i).slots.lowestFree >>= fun position =>
        .ok (s.set h' i ⟨some r, (control.baseAddress + position) :: (s.owners i).live⟩) := by
    show ((setFirstFreeToUsed control (s.owners i).data s.heap >>= _) >>= _) = _
    rw [hrun]
    show ((liftM (control.convertIndexToPosition _) : SlotM Nat) h' >>= _) >>= _ = _
    cases control.convertIndexToPosition (v i).slots.lowestFree with
    | ok position => rfl
    | error e => rfl
  rw [hstep, Control.convertIndexToPosition_eq]
  unfold NaiveOwners.step
  by_cases hroom : control.HasRoom (v i).slots.lowestFree
  · simp only [if_pos hroom]
    refine ⟨_, rfl, ha.set ho.1 hsame ho.2 ?_ (hvalid.take hroom)⟩
    rw [ha.live i]
    rfl
  · simp only [if_neg hroom]
    rfl

theorem deallocate (hp : control.PowerOfTwo m) {i : Fin n} {k : Nat}
    (hk : (v i).live[k]? = some index) :
    ∃ s', step control s (.deallocate i k) = .ok s' ∧ Agrees control s'
      (update v i ⟨(v i).slots.free index, (v i).live.eraseIdx k⟩) := by
  have hvalid := ha.valid i
  have hmem : index ∈ (v i).slots.used :=
    (hvalid.used index).mpr (List.mem_append_left _ (List.mem_of_getElem? hk))
  have hline (j : Nat) (hj : some j ∈ (v i).slots.waiting) : j ∈ (v i).slots.used :=
    (hvalid.used j).mpr (List.mem_append_right _ (List.reduceOption_mem_iff.mpr hj))
  have hget : (s.owners i).live[k]? = some (control.baseAddress + control.position index) := by
    rw [ha.live i, List.getElem?_map, hk]
    rfl
  have hstands := ha.stands i
  have hshared := ha.shared_at i
  cases hdata : (s.owners i).data with
  | none =>
    -- an allocator without data has nothing in use
    rw [hdata] at hstands
    rw [show (v i).slots = .initial control from hstands] at hmem
    exact absurd hmem (Finset.notMem_empty index)
  | some r =>
    rw [hdata] at hstands hshared
    obtain ⟨r', h', hrun, ho, hsame⟩ :=
      deallocate_runs hp hvalid.room ⟨hshared, hstands⟩ hmem hline
    refine ⟨s.set h' i ⟨some r', (s.owners i).live.eraseIdx k⟩, ?_,
      ha.set ho.1 hsame ho.2 ?_ (hvalid.free hk)⟩
    · simp only [step, hget, hdata]
      rw [hrun]
      rfl
    · rw [ha.live i]
      exact List.eraseIdx_map ..

theorem assign (i j : Fin n) : ∃ s', step control s (.assign i j) = .ok s' ∧
      Agrees control s' (update v i (v j)) := by
  have hstands := ha.stands j
  by_cases heq : (s.owners i).data = (s.owners j).data
  · refine ⟨s.set s.heap i ⟨(s.owners i).data, (s.owners j).live⟩, ?_,
      ha.set (ha.shared_at i) (.refl _ _) (heq ▸ hstands) (ha.live j) (ha.valid j)⟩
    show ((if _ then _ else _ : SlotM _) s.heap >>= _) = _
    rw [if_pos heq]
    rfl
  · have hij : j ≠ i := by
      rintro rfl
      exact heq rfl
    obtain ⟨_, h1, hrelease, hs1, hsame1⟩ := releaseData_runs (ha.shared_at i)
    obtain ⟨_, h2, hcopy, rfl, hs2, hsame2⟩ :=
      copy_runs hs1 fun r hr => mem_others hij (Option.mem_def.mp hr)
    have hsame : Undisturbed (SlotAllocator.Holds control) s.heap h2 (others s.owners i) :=
      .of_content_eq fun k hk => (congrFun hsame2 k).trans (hsame1 k hk)
    refine ⟨s.set h2 i ⟨(s.owners j).data, (s.owners j).live⟩, ?_, ha.set hs2 hsame
      (hstands.undisturbed hsame fun _ => mem_others hij) (ha.live j) (ha.valid j)⟩
    show ((if _ then _ else _ : SlotM _) s.heap >>= _) = _
    rw [if_neg heq]
    show ((releaseData (s.owners i).data s.heap >>= fun p => _) >>= _) = _
    rw [hrelease]
    show (copy (s.owners j).data h1 >>= _) = _
    rw [hcopy]
    rfl

theorem destroy (i : Fin n) : ∃ s', step control s (.destroy i) = .ok s' ∧
      Agrees control s' (update v i ⟨.initial control, []⟩) := by
  obtain ⟨_, h', hrelease, hs', hsame⟩ := releaseData_runs (ha.shared_at i)
  refine ⟨s.set h' i ⟨none, []⟩, ?_,
    ha.set (by simpa using hs') (.of_content_eq hsame) rfl rfl .initial⟩
  show (releaseData (s.owners i).data s.heap >>= _) = _
  rw [hrelease]
  rfl

/-- A step of the allocators is one of the naive allocators. -/
theorem step (hp : control.PowerOfTwo m) (op : SlotOp n) :
    match NaiveOwners.step control v op with
    | .ok v' => ∃ s', SlotOwners.step control s op = .ok s' ∧ Agrees control s' v'
    | .error e => SlotOwners.step control s op = .error e := by
  cases op with
  | allocate i => exact ha.allocate hp i
  | assign i j => exact ha.assign i j
  | destroy i => exact ha.destroy i
  | deallocate i k =>
    cases hk : (v i).live[k]? with
    | some index =>
      simp only [NaiveOwners.step, hk]
      exact ha.deallocate hp hk
    | none =>
      simp only [NaiveOwners.step, SlotOwners.step, ha.live i, List.getElem?_map, hk]
      exact ⟨s, rfl, ha⟩

end

theorem run (hp : control.PowerOfTwo m) : ∀ (ops : List (SlotOp n)) {s : SlotOwners n}
    {v : NaiveOwners n}, Agrees control s v →
    match ops.foldlM (NaiveOwners.step control) v with
    | .ok v' => ∃ s', ops.foldlM (SlotOwners.step control) s = .ok s' ∧ Agrees control s' v'
    | .error e => ops.foldlM (SlotOwners.step control) s = .error e
  | [], s, v, ha => ⟨s, rfl, ha⟩
  | op :: ops, s, v, ha => by
    have hstep := ha.step hp op
    rw [List.foldlM_cons, List.foldlM_cons]
    cases hv : NaiveOwners.step control v op with
    | error e =>
      rw [hv] at hstep
      rw [show SlotOwners.step control s op = .error e from hstep]
      rfl
    | ok v' =>
      rw [hv] at hstep
      obtain ⟨s', hs', ha'⟩ := hstep
      rw [hs']
      exact run hp ops ha'

end Agrees

theorem agrees_create : Agrees control (create : SlotOwners n) (NaiveOwners.create control) where
  shared := by
    have hnone : ∑ i, (((create : SlotOwners n).owners i).data.toList : Multiset Ref) = 0 :=
      Finset.sum_eq_zero fun _ _ => rfl
    rw [hnone]
    exact Shared.empty
  stands _ := rfl
  live _ := rfl
  valid _ := .initial

/-- The addresses that are in quarantine. -/
def quarantined (control : Control) (s : SlotOwners n) (i : Fin n) : List Nat :=
  match (s.owners i).data.bind s.heap.content with
  | none => []
  | some data => (waiting data).reduceOption.map (control.baseAddress + ·)

/-- The blocks lie in the bin, with a gap between any two of them. -/
def Separate (control : Control) (blocks : List Nat) : Prop :=
  blocks.Pairwise (fun a b => a + control.slotSize < b ∨ b + control.slotSize < a) ∧
    ∀ a ∈ blocks, control.baseAddress < a ∧
      a + control.slotSize < control.baseAddress + control.size

theorem Agrees.quarantined_eq {s : SlotOwners n} {v : NaiveOwners n} (ha : Agrees control s v)
    (i : Fin n) : quarantined control s i =
      (v i).slots.waiting.reduceOption.map fun k => control.baseAddress + control.position k := by
  have hstands := ha.stands i
  unfold quarantined
  cases hdata : (s.owners i).data with
  | none =>
    rw [hdata] at hstands
    rw [show (v i).slots = .initial control from hstands]
    show [] = (List.replicate _ none).reduceOption.map _
    rw [List.reduceOption_replicate_none]
    rfl
  | some r =>
    rw [hdata] at hstands
    obtain ⟨c, hc, hholds⟩ := hstands
    rw [Option.bind_some, hc]
    show (waiting c).reduceOption.map _ = _
    rw [hholds.waiting_eq, List.reduceOption_map, List.map_map]
    rfl

theorem Agrees.separate {s : SlotOwners n} {v : NaiveOwners n} (ha : Agrees control s v)
    (hp : control.PowerOfTwo m) (i : Fin n) :
    Separate control ((s.owners i).live ++ quarantined control s i) := by
  have hvalid := ha.valid i
  have hroom (k : Nat) (hk : k ∈ (v i).taken) : control.HasRoom k :=
    hvalid.room k ((hvalid.used k).mpr hk)
  rw [ha.live i, ha.quarantined_eq i, ← List.map_append]
  constructor
  · rw [List.pairwise_map]
    refine hvalid.nodup.imp_of_mem fun {a b} hain hbin hne => ?_
    rcases Nat.lt_trichotomy (control.position a) (control.position b) with h | h | h
    · have := Control.position_apart hp (hroom a hain) (hroom b hbin) h
      omega
    · exact absurd (Control.position_injective hp (hroom a hain) (hroom b hbin) h) hne
    · have := Control.position_apart hp (hroom b hbin) (hroom a hain) h
      omega
  · intro a hmem
    obtain ⟨k, hk, rfl⟩ := List.mem_map.mp hmem
    have hslot := (hroom k hk).slotSize_lt hp
    have hinside := (hroom k hk).position_add hp
    omega

/-- Where the naive allocators stop, one of them has used up all slots with a red zone. -/
theorem usedUp {e : Abort} : ∀ {ops : List (SlotOp n)} {v : NaiveOwners n},
    ops.foldlM (NaiveOwners.step control) v = .error e →
    e = .assertion "Zero (or below) red zone size!" ∧
      ∃ pre i post v', ops = pre ++ .allocate i :: post ∧
        pre.foldlM (NaiveOwners.step control) v = .ok v' ∧
        ∀ k, control.HasRoom k → k ∈ (v' i).slots.used
  | [], v, h => by cases h
  | op :: ops, v, h => by
    rw [List.foldlM_cons] at h
    cases hop : NaiveOwners.step control v op with
    | ok v1 =>
      rw [hop] at h
      obtain ⟨he, pre, i, post, v', rfl, hpre, hused⟩ := usedUp h
      refine ⟨he, op :: pre, i, post, v', rfl, ?_, hused⟩
      rw [List.foldlM_cons, hop]
      exact hpre
    | error e' =>
      rw [hop] at h
      cases h
      cases op with
      | assign i j => cases hop
      | destroy i => cases hop
      | deallocate i k =>
        simp only [NaiveOwners.step] at hop
        split at hop <;> cases hop
      | allocate i =>
        simp only [NaiveOwners.step] at hop
        split at hop
        · cases hop
        · next hroom =>
          cases hop
          refine ⟨rfl, [], i, ops, v, rfl, rfl, fun k hk => ?_⟩
          by_contra hout
          exact hroom (hk.mono (Nat.find_min' _ hout))

/-- The allocators do what the naive ones do. The blocks of each of them are apart, and
the only assertion that can fail is for a bin that is used up. -/
theorem run_eq_naive {baseAddress size slotSize quarantineSize : Nat} (hsize : size < 2 ^ 64)
    (hinit : Control.initialize baseAddress size slotSize false quarantineSize = .ok control)
    (ops : List (SlotOp n)) :
    match NaiveOwners.run control ops with
    | .ok v => ∃ s, run control ops = .ok s ∧ ∀ i,
        (s.owners i).live =
          (v i).live.map (fun k => control.baseAddress + control.position k) ∧
        quarantined control s i = (v i).slots.waiting.reduceOption.map
          (fun k => control.baseAddress + control.position k) ∧
        Separate control ((s.owners i).live ++ quarantined control s i)
    | .error e => run control ops = .error e ∧
        e = .assertion "Zero (or below) red zone size!" ∧
        ∃ pre i post v, ops = pre ++ .allocate i :: post ∧
          NaiveOwners.run control pre = .ok v ∧
          ∀ k, control.HasRoom k → k ∈ (v i).slots.used := by
  obtain ⟨m, hp⟩ := Control.exists_powerOfTwo hsize hinit
  have hrun := Agrees.run hp ops (agrees_create (n := n))
  unfold NaiveOwners.run run
  cases hv : ops.foldlM (NaiveOwners.step control) (NaiveOwners.create control) with
  | ok v =>
    rw [hv] at hrun
    obtain ⟨s, hs, ha⟩ := hrun
    exact ⟨s, hs, fun i => ⟨ha.live i, ha.quarantined_eq i, ha.separate hp i⟩⟩
  | error e =>
    rw [hv] at hrun
    exact ⟨hrun, usedUp hv⟩

/-- A bin of four pages for blocks of 256 bytes, with a quarantine of one block. -/
def smallBin : Control := ⟨4096, 16384, 256, 2, false⟩

/-- Two blocks are taken and the allocator is copied. Then the original frees its first
block and takes another; the copy keeps the two blocks. -/
theorem run_eq_naive_copy : ∃ s : SlotOwners 2,
    run smallBin [.allocate 0, .allocate 0, .assign 1 0, .deallocate 0 1, .allocate 0] = .ok s ∧
      (s.owners 0).live = [4096 + 12288, 4096 + 4096] ∧
      (s.owners 1).live = [4096 + 4096, 4096 + 8192] ∧
      Separate smallBin ((s.owners 0).live ++ quarantined smallBin s 0) := by
  have hinit : Control.initialize 4096 16384 256 false 1 = .ok smallBin := rfl
  have h := run_eq_naive (by decide) hinit
    ([.allocate 0, .allocate 0, .assign 1 0, .deallocate 0 1, .allocate 0] : List (SlotOp 2))
  obtain ⟨s, hs, hlive⟩ := Except.ok_of_any
    (r := run smallBin ([.allocate 0, .allocate 0, .assign 1 0, .deallocate 0 1,
      .allocate 0] : List (SlotOp 2)))
    (p := fun s => (s.owners 0).live = [4096 + 12288, 4096 + 4096] ∧
      (s.owners 1).live = [4096 + 4096, 4096 + 8192]) (by decide +kernel)
  rw [hs] at h
  split at h
  · obtain ⟨_, hs', hblocks⟩ := h
    cases hs'
    exact ⟨s, hs, hlive.1, hlive.2, (hblocks 0).2.2⟩
  · cases h.1

/-- The bin for blocks of 2048 bytes in the smallest mapping that is accepted: one page,
which has no room for a single slot. -/
theorem run_redZone :
    run (n := 1) ⟨4096, 4096, 2048, 0, false⟩ [.allocate 0] =
      .error (.assertion "Zero (or below) red zone size!") :=
  Except.error_of_failsWith (by decide +kernel)

end SlotOwners

end VitalSE
