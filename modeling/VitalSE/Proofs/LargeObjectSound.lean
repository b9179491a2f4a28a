import VitalSE.KDAlloc.LargeObjectAllocator
import VitalSE.Proofs.SizedRegionsSound

/-!
# Large objects tile the mapping

Free regions and blocks take turns in the mapping, from its beginning to its end,
and every free region has at least a page. A call keeps this if the block it cuts
out leaves a page on each side of the region it is cut from, and it does not if
not: the size guard of the source adds the two pages where it should subtract
them. A free merges the regions on both sides of a block and needs nothing.

That frees keep the tiling does not depend on the shape of the index. The heap
order of the index is lost when a merged region outgrows what is above it, and
then a call may be turned down although there is room.
-/

namespace VitalSE

open SizedRegions

variable {r n : Region} {size : Nat} {lhs rhs regions : SizedRegions} {bs : List Block}
  {control : LargeObjectAllocator.Control}

/-! ## Rounding to pages -/

/-- The bytes of the pages that a request takes. -/
def pages (size : Nat) : Nat := (size + 4095) / 4096 * 4096

theorem Word.add_eq {a b : Nat} (h : a + b < 2 ^ 64) : Word.add a b = a + b :=
  Nat.mod_eq_of_lt h

theorem Word.sub_eq {a b : Nat} (hle : b ≤ a) (ha : a < 2 ^ 64) : Word.sub a b = a - b := by
  unfold Word.sub
  rw [Nat.sub_add_comm hle, Nat.add_mod_right]
  exact Nat.mod_eq_of_lt (Nat.lt_of_le_of_lt (Nat.sub_le a b) ha)

theorem or_4095 (x : Nat) : x ||| 4095 = x / 4096 * 4096 + 4095 := by
  have hdiv : (x ||| 4095) / 2 ^ 12 = x / 2 ^ 12 := by
    rw [Nat.or_div_two_pow]
    exact Nat.or_zero _
  have hmod : 4095 ≤ (x ||| 4095) % 2 ^ 12 := by
    rw [Nat.or_mod_two_pow]
    exact Nat.right_le_or
  omega

theorem roundUp_eq {x : Nat} (hx : x ≤ 2 ^ 64 - 4096) :
    Word.roundUpToMultipleOf4096 x = pages x := by
  unfold Word.roundUpToMultipleOf4096 pages
  by_cases hpos : x = 0
  · subst hpos
    rfl
  · rw [Word.sub_eq (by omega) (by omega), or_4095, Word.add_eq (by omega)]
    omega

theorem dvd_pages (size : Nat) : 4096 ∣ pages size := ⟨_, Nat.mul_comm _ _⟩

theorem le_pages (size : Nat) : size ≤ pages size := by
  unfold pages
  omega

/-! ## Regions and blocks that take turns -/

/-- From the address on up to `last`: a free region, a block, a free region, and
so on, and a free region at the end. -/
inductive Tiles (last : Nat) : Nat → List Region → List Block → Prop
  | last {lo : Nat} {r : Region} : r.baseAddress = lo → 4096 ∣ r.size → 4096 ≤ r.size →
      lo + r.size = last → Tiles last lo [r] []
  | next {lo : Nat} {r : Region} {b : Block} {rs : List Region} {bs : List Block} :
      r.baseAddress = lo → 4096 ∣ r.size → 4096 ≤ r.size → b.address = lo + r.size →
      Tiles last (b.address + pages b.size) rs bs → Tiles last lo (r :: rs) (b :: bs)

namespace Tiles

variable {last lo : Nat} {rs : List Region}

section

variable (h : Tiles last lo rs bs)

include h

theorem le_last : lo + 4096 ≤ last := by
  induction h with
  | last _ _ hle hend => omega
  | next _ _ hle haddr _ ih => omega

theorem region : ∀ r ∈ rs, lo ≤ r.baseAddress ∧ 4096 ∣ r.size ∧ 4096 ≤ r.size ∧
      r.baseAddress + r.size ≤ last := by
  induction h with
  | last hbase hd hle hend =>
    intro x hx
    cases List.mem_singleton.mp hx
    exact ⟨by omega, hd, hle, by omega⟩
  | next hbase hd hle haddr htl ih =>
    intro x hx
    have hlast := htl.le_last
    rcases List.mem_cons.mp hx with rfl | hx
    · exact ⟨by omega, hd, hle, by omega⟩
    · obtain ⟨hlo, hd', hle', hend⟩ := ih x hx
      exact ⟨by omega, hd', hle', hend⟩

theorem block : ∀ b ∈ bs, lo + 4096 ≤ b.address ∧ b.address + pages b.size + 4096 ≤ last := by
  induction h with
  | last => simp
  | next hbase hd hle haddr htl ih =>
    intro x hx
    have hlast := htl.le_last
    rcases List.mem_cons.mp hx with rfl | hx
    · exact ⟨by omega, by omega⟩
    · have := ih x hx
      omega

theorem sorted : Sorted rs := by
  induction h with
  | last => exact List.pairwise_singleton ..
  | next hbase hd hle haddr htl ih =>
    refine List.pairwise_cons.mpr ⟨fun x hx => ?_, ih⟩
    have := (htl.region x hx).1
    omega

/-- The regions and the blocks fill the range. -/
theorem sum : lo + (rs.map Region.size).sum + (bs.map fun b => pages b.size).sum = last := by
  induction h with
  | last _ _ _ hend => simpa using hend
  | next hbase hd hle haddr htl ih =>
    simp only [List.map_cons, List.sum_cons]
    omega

theorem aligned (hlo : 4096 ∣ lo) : ∀ b ∈ bs, 4096 ∣ b.address := by
  induction h with
  | last => simp
  | next hbase hd hle haddr htl ih =>
    have hb : 4096 ∣ _ := haddr ▸ Nat.dvd_add hlo hd
    intro x hx
    rcases List.mem_cons.mp hx with rfl | hx
    · exact hb
    · exact ih (Nat.dvd_add hb (dvd_pages _)) x hx

/-- Between two blocks there is at least a page. -/
theorem apart : bs.Pairwise fun b b' => b.address + pages b.size + 4096 ≤ b'.address := by
  induction h with
  | last => exact List.Pairwise.nil
  | next hbase hd hle haddr htl ih =>
    exact List.pairwise_cons.mpr ⟨fun x hx => (htl.block x hx).1, ih⟩

/-- A block has a free region on each side. -/
theorem around : ∀ b ∈ bs, (∃ r ∈ rs, 4096 ≤ r.size ∧ r.baseAddress + r.size = b.address) ∧
      ∃ r ∈ rs, 4096 ≤ r.size ∧ r.baseAddress = b.address + pages b.size := by
  induction h with
  | last => simp
  | @next lo r b rs bs hbase hd hle haddr htl ih =>
    intro x hx
    rcases List.mem_cons.mp hx with rfl | hx
    · refine ⟨⟨r, by simp, hle, by omega⟩, ?_⟩
      cases htl with
      | @last _ r' hbase' _ hle' _ => exact ⟨r', by simp, hle', hbase'⟩
      | @next _ r' _ _ _ hbase' _ hle' _ _ => exact ⟨r', by simp, hle', hbase'⟩
    · obtain ⟨⟨r1, hr1, h1⟩, r2, hr2, h2⟩ := ih x hx
      exact ⟨⟨r1, by simp [hr1], h1⟩, r2, by simp [hr2], h2⟩

end

/-! A call puts a block into a region; a free takes one out. -/

/-- The first region may begin elsewhere, if it ends where it did. -/
theorem resize {lo' : Nat} {r' : Region} (h : Tiles last lo (r :: rs) bs)
    (hbase' : r'.baseAddress = lo') (hd : 4096 ∣ r'.size) (hle : 4096 ≤ r'.size)
    (hend : lo' + r'.size = r.baseAddress + r.size) : Tiles last lo' (r' :: rs) bs := by
  cases h with
  | last hbase _ _ hlast => exact .last hbase' hd hle (by omega)
  | next hbase _ _ haddr htl => exact .next hbase' hd hle (by omega) htl

theorem base_eq (h : Tiles last lo (r :: rs) bs) : r.baseAddress = lo := by
  cases h with
  | last hbase => exact hbase
  | next hbase => exact hbase

theorem split {l1 l2 : List Region} {offset rest : Nat} (hd : 4096 ∣ offset)
    (hoff : 4096 ≤ offset) (hd' : 4096 ∣ rest) (hrest : 4096 ≤ rest)
    (hsize : r.size = offset + pages size + rest) :
    ∀ {lo : Nat} {bs : List Block}, Tiles last lo (l1 ++ r :: l2) bs →
      ∃ b1 b2, bs = b1 ++ b2 ∧
        Tiles last lo (l1 ++ { r with size := offset } ::
          ⟨r.baseAddress + offset + pages size, rest⟩ :: l2)
          (b1 ++ ⟨r.baseAddress + offset, size⟩ :: b2) := by
  induction l1 with
  | nil =>
    intro lo bs h
    obtain rfl := h.base_eq
    refine ⟨[], bs, rfl, .next rfl hd hoff rfl (h.resize rfl hd' hrest ?_)⟩
    show r.baseAddress + offset + pages size + rest = _
    omega
  | cons x l1 ih =>
    intro lo bs h
    obtain ⟨y, ys, hys⟩ : ∃ y ys, l1 ++ r :: l2 = y :: ys :=
      List.exists_cons_of_ne_nil (by simp)
    rw [List.cons_append, hys] at h
    cases h with
    | next hbase hdx hlex haddr htl =>
      rw [← hys] at htl
      obtain ⟨b1, b2, rfl, htl'⟩ := ih htl
      exact ⟨_ :: b1, b2, rfl, .next hbase hdx hlex haddr htl'⟩

theorem merge {b : Block} {b2 : List Block} :
    ∀ {b1 : List Block} {lo : Nat} {rs : List Region},
      Tiles last lo rs (b1 ++ b :: b2) →
      ∃ l1 p q l2, rs = l1 ++ p :: q :: l2 ∧ p.baseAddress + p.size = b.address ∧
        q.baseAddress = b.address + pages b.size ∧
        Tiles last lo (l1 ++ { p with
          size := q.baseAddress + q.size - p.baseAddress } :: l2) (b1 ++ b2) := by
  intro b1
  induction b1 with
  | nil =>
    intro lo rs h
    cases h with
    | @next _ p _ rs _ hbase hd hle haddr htl =>
      cases rs with
      | nil => cases htl
      | cons q l2 =>
        have hq := htl.base_eq
        obtain ⟨-, hd', -, -⟩ := htl.region q (by simp)
        refine ⟨[], p, q, l2, rfl, by omega, hq, ?_⟩
        have hsize : q.baseAddress + q.size - p.baseAddress =
            p.size + (pages b.size + q.size) := by omega
        rw [hsize]
        refine htl.resize hbase (Nat.dvd_add hd (Nat.dvd_add (dvd_pages _) hd')) ?_ ?_
        · show 4096 ≤ p.size + (pages b.size + q.size)
          omega
        · show lo + (p.size + (pages b.size + q.size)) = _
          omega
  | cons x b1 ih =>
    intro lo rs h
    cases h with
    | @next _ r _ _ _ hbase hd hle haddr htl =>
      obtain ⟨l1, p, q, l2, rfl, hp, hq, htl'⟩ := ih htl
      exact ⟨r :: l1, p, q, l2, rfl, hp, hq, .next hbase hd hle haddr htl'⟩

end Tiles

namespace LargeObjectAllocator

/-- The allocator was initialized for a mapping of whole pages, and two more could be
addressed behind it. -/
structure Control.Mapped (control : Control) : Prop where
  initialized : ∃ unlimited quarantineSize, Control.initialize control.baseAddress
    control.size unlimited quarantineSize = .ok control
  aligned : 4096 ∣ control.baseAddress
  whole : 4096 ∣ control.size
  addressable : control.baseAddress + control.size + 2 * 4096 < 2 ^ 64

theorem Control.Mapped.large {control : Control} (hm : control.Mapped) :
    3 * 4096 ≤ control.size := by
  obtain ⟨_, _, hinit⟩ := hm.initialized
  unfold Control.initialize at hinit
  split at hinit
  · cases hinit
  · omega

/-- The mapping is the blocks and the free regions, one after the other. -/
def Tiled (control : Control) (regions : SizedRegions) (blocks : List Block) : Prop :=
  ∃ bs, bs.Perm blocks ∧
    Tiles (control.baseAddress + control.size) control.baseAddress regions.toList bs

/-- The free regions; at first the whole mapping is free. -/
def freeRegions (control : Control) : Option Data → SizedRegions
  | none => leaf ⟨control.baseAddress, control.size⟩
  | some data => data.regions

/-- The request leaves a page on each side of the region it is served from. -/
def Fits (control : Control) (data : Option Data) (size : Nat) : Prop :=
  0 < size ∧ size ≤ 2 ^ 64 - 4096 ∧
    ∃ r, (freeRegions control data).getLargestRegion = .ok r ∧
      pages size + 2 * 4096 ≤ r.size

variable {data : Option Data} {blocks : List Block} {address : Nat}

/-- The quarantine; at first it is empty. -/
def quarantineRing (control : Control) : Option Data → Option (RingBuffer (Option Nat))
  | none => emptyQuarantine control
  | some data => data.quarantine

/-- What is computed for a request that fits: a page at least on both sides. -/
theorem carve {range : Nat} (hd : 4096 ∣ range) (hlt : range < 2 ^ 64)
    (hfits : pages size + 2 * 4096 ≤ range) : ∃ offset rest,
      Word.roundUpToMultipleOf4096 (Word.sub range (pages size) / 2) = offset ∧
      Word.sub (Word.sub range offset) (pages size) = rest ∧
      4096 ∣ offset ∧ 4096 ≤ offset ∧ 4096 ∣ rest ∧ 4096 ≤ rest ∧
      range = offset + pages size + rest := by
  obtain ⟨k, hk⟩ := hd
  obtain ⟨j, hj⟩ := dvd_pages size
  generalize pages size = taken at *
  have hround : Word.roundUpToMultipleOf4096 ((range - taken) / 2) =
      4096 * ((k - j + 1) / 2) := by
    rw [roundUp_eq (by omega)]
    unfold pages
    omega
  have hrest : Word.sub (Word.sub range (4096 * ((k - j + 1) / 2))) taken =
      4096 * ((k - j) / 2) := by
    rw [Word.sub_eq (by omega) hlt, Word.sub_eq (by omega) (by omega)]
    omega
  rw [Word.sub_eq (by omega) hlt]
  refine ⟨_, _, hround, hrest, ⟨_, rfl⟩, ?_, ⟨_, rfl⟩, ?_, ?_⟩
  · omega
  · omega
  · omega

theorem Tiled.node (ht : Tiled control regions blocks) :
    ∃ lhs n rhs, regions = .node lhs n rhs := by
  obtain ⟨bs, -, h⟩ := ht
  cases regions with
  | empty => cases h
  | node lhs n rhs => exact ⟨lhs, n, rhs, rfl⟩

theorem Tiled.leaf (ht : Tiled control (leaf r) blocks) : blocks = [] := by
  obtain ⟨bs, hperm, htiles⟩ := ht
  cases htiles with
  | last => exact hperm.symm.eq_nil
  | next _ _ _ _ htl => cases htl

/-- A block that was placed well was cut out of a region with a page to spare on
each side: the tiling accounts for every byte of the region. -/
theorem fits_of_place {taken : Nat} (ht : Tiled control (.node lhs n rhs) blocks)
    (hrun : place (.node lhs n rhs) taken = .ok (address, regions))
    (hnew : Tiled control regions (⟨address, size⟩ :: blocks)) :
    pages size + 2 * 4096 ≤ n.size := by
  obtain ⟨bs, hperm, htiles⟩ := ht
  obtain ⟨bs', hperm', htiles'⟩ := hnew
  unfold place at hrun
  rw [show (node lhs n rhs).getLargestRegion = .ok n from rfl] at hrun
  obtain ⟨_, hroot, hrun⟩ := Except.bind_eq_ok.mp hrun
  cases hroot
  dsimp only at hrun
  split at hrun
  · cases hrun
  · obtain ⟨resized, hresize, hrun⟩ := Except.bind_eq_ok.mp hrun
    obtain ⟨inserted, hinsert, hpure⟩ := Except.bind_eq_ok.mp hrun
    cases hpure
    generalize Word.roundUpToMultipleOf4096 (Word.sub n.size taken / 2) = offset at *
    generalize Word.sub (Word.sub n.size offset) taken = rest at *
    obtain ⟨resized', hresize', hrlist, -⟩ := resizeLargestRegion_ok offset lhs n rhs
    rw [hresize] at hresize'
    cases hresize'
    unfold SizedRegions.insert at hinsert
    split at hinsert
    · cases hinsert
    · have hlist := (insertBelow_adds hinsert).perm
      rw [hrlist] at hlist
      have hoffset := (htiles'.region { n with size := offset }
        (hlist.mem_iff.mpr (by simp))).2.2.1
      have hrest := (htiles'.region _ (hlist.mem_iff.mpr (List.mem_cons_self ..))).2.2.1
      have hsum := htiles.sum
      have hsum' := htiles'.sum
      rw [(hlist.map Region.size).sum_eq, (hperm'.map fun b => pages b.size).sum_eq] at hsum'
      rw [(hperm.map fun b => pages b.size).sum_eq] at hsum
      simp only [toList, List.map_cons, List.map_append, List.sum_cons, List.sum_append]
        at hsum hsum' hoffset hrest
      omega

theorem Tiled.perm {blocks' : List Block} (ht : Tiled control regions blocks)
    (hp : blocks.Perm blocks') : Tiled control regions blocks' := by
  obtain ⟨bs, hperm, htiles⟩ := ht
  exact ⟨bs, hperm.trans hp, htiles⟩

section

variable (hm : control.Mapped)

include hm

theorem acquire_eq (data : Option Data) :
    acquire control data = .ok ⟨freeRegions control data, quarantineRing control data⟩ := by
  cases data with
  | some d => rfl
  | none =>
    have hlarge := hm.large
    unfold acquire SizedRegions.insert
    rw [if_neg (by show ¬ control.size = 0; omega)]
    rfl

/-- A request that fits leaves the mapping tiled. -/
theorem place_fits (ht : Tiled control (.node lhs n rhs) blocks)
    (hfits : pages size + 2 * 4096 ≤ n.size) :
    ∃ address regions, place (.node lhs n rhs) (pages size) = .ok (address, regions) ∧
      Tiled control regions (⟨address, size⟩ :: blocks) ∧
      ((node lhs n rhs).IsHeap → regions.IsHeap) ∧
      n.baseAddress ≤ address ∧ address + pages size ≤ n.baseAddress + n.size := by
  obtain ⟨bs, hperm, htiles⟩ := ht
  obtain ⟨hlo, hdn, -, hend⟩ := htiles.region n (by simp [toList])
  have haddr := hm.addressable
  obtain ⟨offset, rest, hoffset, hrest, hdo, hoffs, hdr, hrests, hsum⟩ :=
    carve hdn (by omega) hfits
  obtain ⟨b1, b2, rfl, hnew⟩ := htiles.split hdo hoffs hdr hrests hsum
  obtain ⟨resized, hresize, hrlist, hrheap⟩ := resizeLargestRegion_ok offset lhs n rhs
  have hbase : Word.add n.baseAddress offset = n.baseAddress + offset :=
    Word.add_eq (by omega)
  have hbase' : Word.add (n.baseAddress + offset) (pages size) =
      n.baseAddress + offset + pages size := Word.add_eq (by omega)
  have hsorted : Sorted ((lhs.toList ++ [{ n with size := offset }]) ++
      ⟨n.baseAddress + offset + pages size, rest⟩ :: rhs.toList) := by
    rw [List.append_assoc]
    exact hnew.sorted
  obtain ⟨-, hleft, hright, -⟩ := sorted_iff.mp hsorted
  obtain ⟨inserted, hinsert, hilist⟩ := insertBelow_toList
    ⟨n.baseAddress + offset + pages size, rest⟩ resized
    (hrlist.trans (by simp)) ⟨hleft, hright⟩
  refine ⟨n.baseAddress + offset, inserted, ?_,
    ⟨b1 ++ ⟨n.baseAddress + offset, size⟩ :: b2, ?_, ?_⟩, ?_, by omega, by omega⟩
  · have hguard : ¬ Word.add n.size (2 * 4096) < pages size := by
      rw [Word.add_eq (by omega)]
      omega
    unfold place getLargestRegion
    rw [Except.ok_bind]
    dsimp only
    rw [if_neg hguard, hoffset, hrest, hbase, hbase', hresize, Except.ok_bind]
    unfold SizedRegions.insert
    rw [if_neg (by show ¬ rest = 0; omega), hinsert]
    rfl
  · exact List.perm_middle.trans (hperm.cons _)
  · rw [hilist]
    simpa using hnew
  · intro hh
    exact (insertBelow_adds hinsert).heap (hrheap hh)

theorem allocate_eq (hpos : 0 < size) : allocate control data size =
      place (freeRegions control data) (Word.roundUpToMultipleOf4096 size) >>= fun p =>
        .ok (p.1, ⟨p.2, quarantineRing control data⟩) := by
  unfold allocate
  rw [acquire_eq hm]
  show (if size = 0 then _ else _) = _
  rw [if_neg (by omega)]
  rfl

/-- A request that fits is served from the root of the index. -/
theorem allocate_fits (ht : Tiled control (freeRegions control data) blocks)
    (hfits : Fits control data size) : ∃ address regions,
      allocate control data size = .ok (address, ⟨regions, quarantineRing control data⟩) ∧
      Tiled control regions (⟨address, size⟩ :: blocks) ∧
      ((freeRegions control data).IsHeap → regions.IsHeap) ∧
      ∃ r, (freeRegions control data).getLargestRegion = .ok r ∧
        r.baseAddress ≤ address ∧ address + pages size ≤ r.baseAddress + r.size := by
  obtain ⟨hpos, hle, n, hroot, hfits⟩ := hfits
  rw [allocate_eq hm hpos, roundUp_eq hle]
  generalize freeRegions control data = free at *
  obtain ⟨lhs, n', rhs, rfl⟩ := ht.node
  cases hroot
  obtain ⟨address, regions, hplace, hnew, hheap, hwithin⟩ := place_fits hm ht hfits
  refine ⟨address, regions, ?_, hnew, hheap, n, rfl, hwithin⟩
  rw [hplace]
  rfl

/-- A request that is served well fits. -/
theorem fits_of_allocate {data' : Data} (ht : Tiled control (freeRegions control data) blocks)
    (hrun : allocate control data size = .ok (address, data'))
    (hnew : Tiled control data'.regions (⟨address, size⟩ :: blocks)) : Fits control data size := by
  by_cases hpos : 0 < size
  · rw [allocate_eq hm hpos] at hrun
    unfold Fits
    generalize freeRegions control data = free at *
    obtain ⟨lhs, n, rhs, rfl⟩ := ht.node
    obtain ⟨⟨a, regions⟩, hplace, hpure⟩ := Except.bind_eq_ok.mp hrun
    cases hpure
    have hfits := fits_of_place ht hplace hnew
    refine ⟨hpos, ?_, n, rfl, hfits⟩
    obtain ⟨bs, -, htiles⟩ := ht
    have hend := (htiles.region n (by simp [toList])).2.2.2
    have haddr := hm.addressable
    have hle := le_pages size
    omega
  · unfold allocate at hrun
    rw [acquire_eq hm] at hrun
    obtain rfl : size = 0 := by omega
    cases hrun

/-! ## Frees -/

/-- A block goes back to the regions around it. -/
theorem mergeAroundAddress_tiled {b : Block} (hpos : 0 < b.size)
    (ht : Tiled control regions (b :: blocks)) :
    ∃ regions', regions.mergeAroundAddress b.address = .ok regions' ∧
      Tiled control regions' blocks ∧ (regions.IsHeap → (regions'.IsHeap ↔
        RoomAbove b.address (mergedAround b.address regions) regions)) := by
  obtain ⟨bs, hperm, htiles⟩ := ht
  obtain ⟨b1, b2, rfl⟩ := List.append_of_mem (hperm.mem_iff.mpr (List.mem_cons_self ..))
  obtain ⟨l1, p, q, l2, hlist, hp, hq, hnew⟩ := htiles.merge
  obtain ⟨-, -, hple, -⟩ := htiles.region p (by simp [hlist])
  obtain ⟨-, -, hqle, hqend⟩ := htiles.region q (by simp [hlist])
  have haddr := hm.addressable
  have hsize : mergedSize p q = q.baseAddress + q.size - p.baseAddress := by
    unfold mergedSize
    rw [Word.add_eq (by omega)]
    exact Word.sub_eq (by omega) (by omega)
  have hpages := le_pages b.size
  have hbefore : p.baseAddress ≤ b.address := by omega
  have hafter : b.address < q.baseAddress := by omega
  obtain ⟨regions', hrun, hlist', hheap⟩ :=
    mergeAroundAddress_ok hlist htiles.sorted hbefore hafter
  refine ⟨regions', hrun, ⟨b1 ++ b2, ?_, ?_⟩, fun hh => ?_⟩
  · exact List.Perm.cons_inv (List.perm_middle.symm.trans hperm)
  · rw [hlist', hsize]
    exact hnew
  · exact hheap (by omega) hh

end

/-- The addresses in quarantine, from the oldest to the newest. -/
def waiting : Option (RingBuffer (Option Nat)) → List Nat
  | none => []
  | some ring => ring.contents.filterMap id

theorem waiting_emptyQuarantine (control : Control) : waiting (emptyQuarantine control) = [] := by
  unfold emptyQuarantine
  split
  · show List.filterMap id (RingBuffer.contents _) = []
    rw [RingBuffer.contents_replicate]
    simp
  · rfl

theorem mem_waiting {quarantine : Option (RingBuffer (Option Nat))} : address ∈ waiting quarantine ↔
      quarantine.any (fun ring => ring.slots.contains (some address)) = true := by
  cases quarantine with
  | none => simp [waiting]
  | some ring =>
    have hslots : ∀ a, a ∈ ring.contents ↔ a ∈ ring.slots := by
      intro a
      unfold RingBuffer.contents
      rw [List.mem_append, or_comm, ← List.mem_append, List.take_append_drop]
    simp [waiting, hslots]

/-- What leaves the quarantine and what stays is what was there and the new address. -/
theorem quarantine_waiting (data : Data) (ptr : Nat) :
    (quarantine data ptr).2.regions = data.regions ∧
      ((quarantine data ptr).1.toList ++ waiting (quarantine data ptr).2.quarantine).Perm
        (ptr :: waiting data.quarantine) := by
  obtain ⟨regions, ring⟩ := data
  cases ring with
  | none => exact ⟨rfl, List.Perm.refl _⟩
  | some ring =>
    obtain ⟨rest, hold, hnew⟩ := ring.contents_exchange (some ptr)
    refine ⟨rfl, ?_⟩
    show ((ring.exchange (some ptr)).1.toList ++
      (ring.exchange (some ptr)).2.contents.filterMap id).Perm
        (ptr :: ring.contents.filterMap id)
    rw [hold, hnew]
    cases (ring.exchange (some ptr)).1 with
    | none =>
      rw [List.filterMap_append]
      exact List.perm_append_singleton ..
    | some out =>
      rw [List.filterMap_append]
      exact ((List.perm_append_singleton ..).cons out).trans (List.Perm.swap ..)

end LargeObjectAllocator

/-! ## Runs of a client -/

namespace LargeObjects

open LargeObjectAllocator

variable {s : LargeObjects}

/-- The blocks that are in use or in quarantine. -/
def blocks (s : LargeObjects) : List Block := s.live ++ s.quarantined

/-- What a run keeps: the tiling, and which blocks are in quarantine. -/
structure Sound (control : Control) (s : LargeObjects) : Prop where
  tiled : Tiled control (freeRegions control s.data) s.blocks
  nonempty : ∀ b ∈ s.blocks, 0 < b.size
  waiting : control.unlimitedQuarantine = false →
    (waiting (quarantineRing control s.data)).Perm (s.quarantined.map Block.address)

theorem addresses_nodup (ht : Tiled control regions bs) : (bs.map Block.address).Nodup := by
  obtain ⟨bs', hperm, htiles⟩ := ht
  rw [← (hperm.map Block.address).nodup_iff, List.Nodup, List.pairwise_map]
  exact htiles.apart.imp fun h => by omega

/-- What the quarantine lets go is at most one of the blocks, and the filter of the
client takes it out. -/
theorem released {out : Option Nat} {stay : List Nat}
    (hperm : (out.toList ++ stay).Perm (bs.map Block.address))
    (hnodup : (bs.map Block.address).Nodup) :
    ((bs.filter fun b => b.address ∈ stay).map Block.address).Perm stay ∧
      ∃ r : Option Block, r.map Block.address = out ∧
        bs.Perm (r.toList ++ bs.filter fun b => b.address ∈ stay) := by
  have hnodup' := hperm.nodup_iff.mpr hnodup
  have hdisjoint := List.disjoint_of_nodup_append hnodup'
  have hkept : ((bs.filter fun b => b.address ∈ stay).map Block.address).Perm stay := by
    have hfilter : (bs.map Block.address).filter (fun a => a ∈ stay) =
        (bs.filter fun b => b.address ∈ stay).map Block.address := by
      rw [List.filter_map]
      rfl
    rw [← hfilter]
    refine (hperm.filter _).symm.trans ?_
    rw [List.filter_append, List.filter_eq_nil_iff.mpr fun a ha => by simpa using hdisjoint ha,
      List.filter_eq_self.mpr fun a ha => by simpa using ha]
    exact List.Perm.refl _
  refine ⟨hkept, ?_⟩
  have hsplit := (List.filter_append_perm (fun b : Block => b.address ∈ stay) bs).symm
  generalize bs.filter (fun b => b.address ∈ stay) = kept at *
  generalize bs.filter (fun b => !decide (b.address ∈ stay)) = gone at *
  have hgone : (gone.map Block.address).Perm out.toList := by
    have hmap := hsplit.map Block.address
    rw [List.map_append] at hmap
    refine (List.perm_append_left_iff stay).mp ?_
    calc (stay ++ gone.map Block.address).Perm
          (kept.map Block.address ++ gone.map Block.address) := hkept.symm.append_right _
      List.Perm _ (bs.map Block.address) := hmap.symm
      List.Perm _ (out.toList ++ stay) := hperm.symm
      List.Perm _ (stay ++ out.toList) := List.perm_append_comm
  cases out with
  | none =>
    rw [List.map_eq_nil_iff.mp hgone.eq_nil, List.append_nil] at hsplit
    exact ⟨none, rfl, hsplit⟩
  | some a =>
    obtain ⟨b, rfl, hb⟩ := List.map_eq_singleton_iff.mp (List.perm_singleton.mp hgone)
    exact ⟨some b, congrArg some hb, hsplit.trans List.perm_append_comm⟩

theorem filter_inQuarantine (control : Control) (data : Data) (bs : List Block) :
    bs.filter (fun b => inQuarantine control data b.address) =
      if control.unlimitedQuarantine then bs
      else bs.filter fun b => b.address ∈ LargeObjectAllocator.waiting data.quarantine := by
  unfold inQuarantine
  cases control.unlimitedQuarantine with
  | true => simp
  | false =>
    rw [if_neg (by decide)]
    congr 1
    funext b
    rw [Bool.false_or, Bool.eq_iff_iff, decide_eq_true_iff]
    exact mem_waiting.symm

theorem run_concat (control : Control) (ops : List LargeObjectOp) (op : LargeObjectOp) :
    run control (ops ++ [op]) = run control ops >>= fun s => step control s op := by
  unfold run
  rw [List.foldlM_append]
  congr 1
  funext s
  exact bind_pure _

/-- Every request of the run leaves a page on each side of the region it is served from. -/
def Fitting (control : Control) (ops : List LargeObjectOp) : Prop :=
  ∀ pre size s, pre ++ [.allocate size] <+: ops → run control pre = .ok s →
    Fits control s.data size

/-- The free puts a region back that is not larger than those that stay above it. -/
def Roomy (control : Control) (s : LargeObjects) : LargeObjectOp → Prop
  | .allocate _ => True
  | .deallocate i => ∀ block ∈ s.live[i]?, ∀ data ∈ s.data,
      control.unlimitedQuarantine = false →
        ∀ address ∈ (quarantine data block.address).1,
          RoomAbove address (mergedAround address data.regions) data.regions

instance : DecidablePred (Roomy control s)
  | .allocate _ => .isTrue trivial
  | .deallocate i => inferInstanceAs (Decidable (∀ block ∈ s.live[i]?, ∀ data ∈ s.data,
      control.unlimitedQuarantine = false →
        ∀ address ∈ (quarantine data block.address).1,
          RoomAbove address (mergedAround address data.regions) data.regions))

variable {ops pre : List LargeObjectOp}

/-- Every free of the run puts a region back that is not larger than those that stay
above it. -/
def AllRoomy (control : Control) (ops : List LargeObjectOp) : Prop :=
  ∀ pre op s, pre ++ [op] <+: ops → run control pre = .ok s → Roomy control s op

section

variable (hm : control.Mapped)

include hm

theorem create_sound : Sound control create where
  tiled := ⟨[], List.Perm.refl _, .last rfl hm.whole (le_trans (by decide) hm.large) rfl⟩
  nonempty := by simp [blocks, create]
  waiting := fun _ => by
    show List.Perm (LargeObjectAllocator.waiting (emptyQuarantine control)) []
    rw [waiting_emptyQuarantine]

theorem allocate_sound (hs : Sound control s) (hfits : Fits control s.data size) :
    ∃ s', step control s (.allocate size) = .ok s' ∧ Sound control s' ∧
      ((freeRegions control s.data).IsHeap → (freeRegions control s'.data).IsHeap) := by
  obtain ⟨address, regions, hrun, hnew, hheap, -⟩ := allocate_fits hm hs.tiled hfits
  refine ⟨⟨some ⟨regions, quarantineRing control s.data⟩, ⟨address, size⟩ :: s.live,
    s.quarantined⟩, ?_, ⟨hnew, ?_, hs.waiting⟩, hheap⟩
  · show (allocate control s.data size >>= _) = _
    rw [hrun]
    rfl
  intro b hb
  rcases List.mem_cons.mp hb with rfl | hb
  · exact hfits.1
  · exact hs.nonempty b hb

/-- The data after a free, and the blocks that are in quarantine then. -/
theorem quarantine_sound {data : Data} {live quarantined : List Block}
    {block : Block} (ht : Tiled control data.regions (live ++ block :: quarantined))
    (hpos : ∀ b ∈ live ++ block :: quarantined, 0 < b.size)
    (hwait : control.unlimitedQuarantine = false →
      (LargeObjectAllocator.waiting data.quarantine).Perm (quarantined.map Block.address)) :
    ∃ data', deallocate control (some data) block.address = .ok data' ∧
      Sound control ⟨some data', live, (block :: quarantined).filter fun b =>
        inQuarantine control data' b.address⟩ ∧ (data.regions.IsHeap → (data'.regions.IsHeap ↔
        (control.unlimitedQuarantine = false → ∀ address ∈ (quarantine data block.address).1,
          RoomAbove address (mergedAround address data.regions) data.regions))) := by
  unfold deallocate
  dsimp only
  cases hunlimited : control.unlimitedQuarantine with
  | true =>
    rw [if_pos rfl]
    refine ⟨data, rfl, ?_, fun hh => by simpa using hh⟩
    rw [filter_inQuarantine, if_pos hunlimited]
    exact ⟨ht, hpos, by simp [hunlimited]⟩
  | false =>
    rw [if_neg (by decide)]
    obtain ⟨hregions, hqueue⟩ := quarantine_waiting data block.address
    have hnodup : ((block :: quarantined).map Block.address).Nodup := by
      have h := addresses_nodup ht
      rw [List.map_append] at h
      exact h.of_append_right
    obtain ⟨hkept, r, hr, hsplit⟩ :=
      released (hqueue.trans ((hwait hunlimited).cons _)) hnodup
    have hblocks := (hsplit.append_left live).trans
      (List.perm_append_comm_assoc live r.toList _)
    have ht' := ht.perm hblocks
    have hpos' := fun b hb => hpos b (hblocks.mem_iff.mpr hb)
    rw [← hregions] at ht' ⊢
    generalize quarantine data block.address = p at *
    obtain ⟨out, data'⟩ := p
    cases r with
    | none =>
      cases hr
      refine ⟨data', rfl, ?_, fun hh => by simpa using hh⟩
      rw [filter_inQuarantine, hunlimited, if_neg (by decide)]
      exact ⟨ht', hpos', fun _ => hkept.symm⟩
    | some b =>
      cases hr
      obtain ⟨regions', hrun, hnew, hheap⟩ :=
        mergeAroundAddress_tiled hm (hpos' b (List.mem_cons_self ..)) ht'
      refine ⟨{ data' with regions := regions' }, ?_, ?_, fun hh => ?_⟩
      · show (data'.regions.mergeAroundAddress b.address >>= _) = _
        rw [hrun]
        rfl
      · rw [filter_inQuarantine, hunlimited, if_neg (by decide)]
        exact ⟨hnew, fun x hx => hpos' x (List.mem_cons_of_mem _ hx), fun _ => hkept.symm⟩
      · simpa using hheap hh

theorem deallocate_sound (hs : Sound control s) (i : Nat) :
    ∃ s', step control s (.deallocate i) = .ok s' ∧ Sound control s' ∧
      ((freeRegions control s.data).IsHeap →
        ((freeRegions control s'.data).IsHeap ↔ Roomy control s (.deallocate i))) := by
  unfold step Roomy
  dsimp only
  cases hlive : s.live[i]? with
  | none =>
    refine ⟨s, rfl, hs, fun hh => ?_⟩
    simpa using hh
  | some block =>
    have hperm : s.blocks.Perm (s.live.eraseIdx i ++ block :: s.quarantined) := by
      obtain ⟨hi, rfl⟩ := List.getElem?_eq_some_iff.mp hlive
      exact ((List.getElem_cons_eraseIdx_perm hi).symm.append_right _).trans
        List.perm_middle.symm
    have ht := hs.tiled.perm hperm
    have hwait := hs.waiting
    cases hdata : s.data with
    | none =>
      rw [hdata] at ht
      exact absurd ht.leaf (by simp)
    | some data =>
      rw [hdata] at ht hwait
      obtain ⟨data', hrun, hsound, hheap⟩ := quarantine_sound hm ht
        (fun b hb => hs.nonempty b (hperm.mem_iff.mpr hb)) hwait
      refine ⟨_, ?_, hsound, fun hh => ?_⟩
      · show (deallocate control (some data) block.address >>= _) = _
        rw [hrun]
        rfl
      · show data'.regions.IsHeap ↔ _
        simpa using hheap hh

theorem step_sound (hs : Sound control s) (op : LargeObjectOp)
    (hfits : ∀ size, op = .allocate size → Fits control s.data size) :
    ∃ s', step control s op = .ok s' ∧ Sound control s' ∧ ((freeRegions control s.data).IsHeap →
        ((freeRegions control s'.data).IsHeap ↔ Roomy control s op)) := by
  cases op with
  | allocate size =>
    obtain ⟨s', hrun, hs', hheap⟩ := allocate_sound hm hs (hfits size rfl)
    exact ⟨s', hrun, hs', fun hh => iff_of_true (hheap hh) trivial⟩
  | deallocate i => exact deallocate_sound hm hs i

theorem run_sound (hfit : Fitting control ops) (hpre : pre <+: ops) :
    ∃ s, run control pre = .ok s ∧ Sound control s ∧
      (AllRoomy control ops → (freeRegions control s.data).IsHeap) := by
  induction pre using List.reverseRecOn with
  | nil => exact ⟨create, rfl, create_sound hm, fun _ => leaf_isHeap _⟩
  | append_singleton pre op ih =>
    obtain ⟨s, hrun, hs, hh⟩ := ih ((List.prefix_append ..).trans hpre)
    obtain ⟨s', hstep, hs', hheap⟩ := step_sound hm hs op fun size hop =>
      hfit pre size s (hop ▸ hpre) hrun
    refine ⟨s', ?_, hs', fun hroomy => (hheap (hh hroomy)).mpr (hroomy pre op s hpre hrun)⟩
    rw [run_concat, hrun]
    exact hstep

end

/-! ### The blocks and the regions -/

/-- No block reaches into another one, nor out of the mapping. -/
structure LaidOut (control : Control) (s : LargeObjects) : Prop where
  inside : ∀ b ∈ s.blocks, control.baseAddress ≤ b.address ∧
    b.address + b.size ≤ control.baseAddress + control.size
  aligned : ∀ b ∈ s.blocks, 4096 ∣ b.address
  apart : s.blocks.Pairwise fun b b' =>
    b.address + b.size ≤ b'.address ∨ b'.address + b'.size ≤ b.address
  /-- There is a free page before a block and one behind it. -/
  guarded : ∀ b ∈ s.blocks,
    (∃ r ∈ (freeRegions control s.data).toList,
      4096 ≤ r.size ∧ r.baseAddress + r.size = b.address) ∧
    ∃ r ∈ (freeRegions control s.data).toList,
      4096 ≤ r.size ∧ r.baseAddress = b.address + pages b.size
  tiled : Tiled control (freeRegions control s.data) s.blocks

theorem laidOut_of_tiled (hm : control.Mapped)
    (ht : Tiled control (freeRegions control s.data) s.blocks) : LaidOut control s := by
  have ht' := ht
  obtain ⟨bs, hperm, htiles⟩ := ht'
  refine ⟨fun b hb => ?_, fun b hb => ?_, ?_, fun b hb => ?_, ht⟩
  · have hblock := htiles.block b (hperm.mem_iff.mpr hb)
    have hle := le_pages b.size
    omega
  · exact htiles.aligned hm.aligned b (hperm.mem_iff.mpr hb)
  · refine (hperm.pairwise_iff fun h => h.symm).mp (htiles.apart.imp fun {b b'} h => .inl ?_)
    have hle := le_pages b.size
    omega
  · exact htiles.around b (hperm.mem_iff.mpr hb)

/-- The blocks are laid out well all along a run just when every request fits. -/
theorem laidOut_iff_fitting (hm : control.Mapped) (ops : List LargeObjectOp) :
    (∀ pre, pre <+: ops → ∃ s, run control pre = .ok s ∧ LaidOut control s) ↔
      Fitting control ops := by
  constructor
  · intro h pre size s hpre hrun
    obtain ⟨s0, hrun0, hs⟩ := h pre ((List.prefix_append ..).trans hpre)
    rw [hrun] at hrun0
    cases hrun0
    obtain ⟨s', hrun', hs'⟩ := h _ hpre
    rw [run_concat, hrun] at hrun'
    obtain ⟨⟨address, data'⟩, hstep, hpure⟩ :
        ∃ p, allocate control s.data size = .ok p ∧ _ := Except.bind_eq_ok.mp hrun'
    cases hpure
    exact fits_of_allocate hm hs.tiled hstep hs'.tiled
  · intro hfit pre hpre
    obtain ⟨s, hrun, hs, -⟩ := run_sound hm hfit hpre
    exact ⟨s, hrun, laidOut_of_tiled hm hs.tiled⟩

theorem prefix_pair {op op1 op2 : LargeObjectOp} (h : pre ++ [op] <+: [op1, op2]) :
    (pre = [] ∧ op = op1) ∨ pre = [op1] ∧ op = op2 := by
  match pre with
  | [] => exact .inl (by simpa using h)
  | [_] => exact .inr (by simpa using h)
  | _ :: _ :: _ => simp at h

theorem mapped_pages : Control.Mapped ⟨65536, 100 * 4096, 0, false⟩ :=
  ⟨⟨false, 0, rfl⟩, by decide, by decide, by decide⟩

theorem fitting_pages : Fitting ⟨65536, 100 * 4096, 0, false⟩ [.allocate 5000, .deallocate 0] := by
  intro pre size s hpre hrun
  rcases prefix_pair hpre with ⟨rfl, hop⟩ | ⟨-, hop⟩
  · cases hop
    cases hrun
    exact ⟨by decide, by decide, _, rfl, by decide⟩
  · cases hop

theorem laidOut_iff_fitting_pages :
    Control.Mapped ⟨65536, 100 * 4096, 0, false⟩ ∧
      ∀ pre, pre <+: [.allocate 5000, .deallocate 0] →
        ∃ s, run ⟨65536, 100 * 4096, 0, false⟩ pre = .ok s ∧
          LaidOut ⟨65536, 100 * 4096, 0, false⟩ s := by
  exact ⟨mapped_pages, (laidOut_iff_fitting mapped_pages _).mpr fitting_pages⟩

/-- In a mapping of three pages the guard lets a request for four pass. The offset
wraps around, and the block is far behind the mapping. -/
theorem allocate_outside_mapping :
    Control.Mapped ⟨65536, 3 * 4096, 0, false⟩ ∧
      ∃ s, run ⟨65536, 3 * 4096, 0, false⟩ [.allocate (4 * 4096)] = .ok s ∧
        s.live = [⟨9223372036854841344, 4 * 4096⟩] ∧
          65536 + 3 * 4096 < 9223372036854841344 := by
  refine ⟨⟨⟨false, 0, rfl⟩, by decide, by decide, by decide⟩, ?_⟩
  exact Except.ok_of_any (by decide +kernel)

/-! ### The order of the index -/

/-- The index is in order, and finds room where there is any. -/
structure Indexed (control : Control) (s : LargeObjects) : Prop where
  search : Sorted (freeRegions control s.data).toList
  heap : (freeRegions control s.data).IsHeap
  /-- A request is served from a largest region if any region is large enough. -/
  served : ∀ size, 0 < size →
    (∃ r ∈ (freeRegions control s.data).toList, pages size + 2 * 4096 ≤ r.size) →
      ∃ address data', allocate control s.data size = .ok (address, data') ∧
        ∃ r ∈ (freeRegions control s.data).toList,
          (∀ r' ∈ (freeRegions control s.data).toList, r'.size ≤ r.size) ∧
          r.baseAddress ≤ address ∧ address + pages size ≤ r.baseAddress + r.size

theorem indexed_of_heap (hm : control.Mapped) (hs : Sound control s)
    (hh : (freeRegions control s.data).IsHeap) : Indexed control s := by
  obtain ⟨bs, -, htiles⟩ := hs.tiled
  refine ⟨htiles.sorted, hh, fun size hpos ⟨r, hr, hle⟩ => ?_⟩
  obtain ⟨lhs, n, rhs, hroot⟩ := hs.tiled.node
  have hend := (htiles.region r hr).2.2.2
  have hpages := le_pages size
  have haddr := hm.addressable
  have hfits : Fits control s.data size := by
    refine ⟨hpos, by omega, n, by rw [hroot]; rfl, ?_⟩
    rw [hroot] at hh hr
    exact le_trans hle (hh.le_root hr)
  obtain ⟨address, regions, hrun, -, -, r', hr', hwithin⟩ := allocate_fits hm hs.tiled hfits
  refine ⟨address, _, hrun, r', ?_⟩
  rw [hroot] at hh hr' ⊢
  cases hr'
  exact ⟨by simp [toList], fun x hx => hh.le_root hx, hwithin⟩

/-- All along a run whose requests fit, the index is a search tree and a heap, and
serves from a largest region, just when the frees are roomy. -/
theorem indexed_iff_allRoomy (hm : control.Mapped) (hfit : Fitting control ops) :
    (∀ pre, pre <+: ops → ∃ s, run control pre = .ok s ∧ Indexed control s) ↔
      AllRoomy control ops := by
  constructor
  · intro h pre op s hpre hrun
    obtain ⟨s0, hrun0, hindexed⟩ := h pre ((List.prefix_append ..).trans hpre)
    obtain ⟨s1, hrun1, hs, -⟩ := run_sound hm hfit ((List.prefix_append ..).trans hpre)
    rw [hrun] at hrun0 hrun1
    cases hrun0
    cases hrun1
    obtain ⟨s', hrun', hindexed'⟩ := h _ hpre
    obtain ⟨s'', hstep, -, hheap⟩ := step_sound hm hs op fun size hop =>
      hfit pre size s (hop ▸ hpre) hrun
    rw [run_concat, hrun] at hrun'
    rw [show step control s op = .ok s' from hrun'] at hstep
    cases hstep
    exact (hheap hindexed.heap).mp hindexed'.heap
  · intro hroomy pre hpre
    obtain ⟨s, hrun, hs, hh⟩ := run_sound hm hfit hpre
    exact ⟨s, hrun, indexed_of_heap hm hs (hh hroomy)⟩

theorem indexed_iff_allRoomy_pages :
    Control.Mapped ⟨65536, 100 * 4096, 0, false⟩ ∧
      Fitting ⟨65536, 100 * 4096, 0, false⟩ [.allocate 5000, .deallocate 0] ∧
        ∀ pre, pre <+: [.allocate 5000, .deallocate 0] →
          ∃ s, run ⟨65536, 100 * 4096, 0, false⟩ pre = .ok s ∧
            Indexed ⟨65536, 100 * 4096, 0, false⟩ s := by
  refine ⟨mapped_pages, fitting_pages,
    (indexed_iff_allRoomy mapped_pages fitting_pages).mpr ?_⟩
  intro pre op s hpre hrun
  rcases prefix_pair hpre with ⟨-, rfl⟩ | ⟨rfl, rfl⟩
  · trivial
  · have heval : (run ⟨65536, 100 * 4096, 0, false⟩ [.allocate 5000]).toOption.any
        (fun s => Roomy ⟨65536, 100 * 4096, 0, false⟩ s (.deallocate 0)) = true := by
      decide +kernel
    rw [hrun] at heval
    exact of_decide_eq_true heval

/-- Two blocks of a page, and the first one is freed: its region is merged into a
child that is larger than the root then. The root cannot serve forty pages, the
child could. -/
theorem deallocate_breaks_heap :
    Control.Mapped ⟨65536, 100 * 4096, 0, false⟩ ∧
      (∃ s, run ⟨65536, 100 * 4096, 0, false⟩
          [.allocate 4096, .allocate 4096, .deallocate 1] = .ok s ∧
        freeRegions ⟨65536, 100 * 4096, 0, false⟩ s.data =
          .node .empty ⟨65536, 102400⟩ (leaf ⟨172032, 303104⟩)) ∧
      pages (40 * 4096) + 2 * 4096 ≤ 303104 ∧
      run ⟨65536, 100 * 4096, 0, false⟩
        [.allocate 4096, .allocate 4096, .deallocate 1, .allocate (40 * 4096)] =
          .error (.assertion "Zero (or below) red zone size!") := by
  refine ⟨mapped_pages, ?_, by decide, ?_⟩
  · exact Except.ok_of_any (by decide +kernel)
  · exact Except.error_of_failsWith (by decide +kernel)

end LargeObjects

end VitalSE
