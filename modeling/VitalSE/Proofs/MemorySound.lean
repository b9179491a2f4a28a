import VitalSE.Core.Memory
import VitalSE.Proofs.Reduced

/-!
# Object states hold bytes

An object state stands for a function from offsets to bytes, under each
valuation one. `View` is what its masks and arrays mean, with the missing ones
filled in, and every small operation is one update of the view. The caches and
the updates overlap, and the invariant says how: a cached byte is the byte, and
so is what the updates say about a byte that is not marked unflushed.

Reading keeps the bytes, though it may move them from the caches to the updates
and create the constant array below these. Writing changes the bytes it is
meant to, and no others.
-/

namespace VitalSE

open Function (update update_of_ne update_eq_self_iff)

variable {i : BitVec 32} {base : BitVec 32 → Option (BitVec 8)} {ws : List (Expr × Expr)}
  {σ : Valuation} {os : ObjectState} {o : Nat}

/-! ## Updates over a base -/

/-- Look an index up in evaluated updates, newest first. -/
def overlay (base : BitVec 32 → Option (BitVec 8)) (i : BitVec 32) :
    List (BitVec 32 × BitVec 8) → Option (BitVec 8)
  | [] => base i
  | (j, v) :: rest => if i = j then some v else overlay base i rest

theorem readUpdates_eq_overlay {root : Array} :
    ∀ {us : List (BitVec 32 × BitVec 8)}, readUpdates σ root i us =
      overlay (fun i => root.initialValue σ i.toNat) i us
  | [] => rfl
  | (j, v) :: us => by rw [readUpdates, overlay, readUpdates_eq_overlay]

theorem overlay_append :
    ∀ {us vs : List (BitVec 32 × BitVec 8)}, overlay base i (us ++ vs) =
      overlay (fun i => overlay base i vs) i us
  | [], _ => rfl
  | (j, v) :: us, vs => by
    rw [List.cons_append, overlay, overlay, overlay_append]

/-- What is below the updates: zeros, while there is no root. -/
def baseValue (σ : Valuation) : Option Array → BitVec 32 → Option (BitVec 8)
  | some root, i => root.initialValue σ i.toNat
  | none, _ => some 0

/-! ## The view of an object state -/

/-- An object as reads and writes see it. -/
@[ext]
structure View where
  concrete : Nat → Bool
  store : Nat → BitVec 8
  known : Nat → Option Expr
  unflushed : Nat → Bool
  root : Option Array
  head : UpdateNode
  size : Nat
  readOnly : Bool
  owner : Nat

namespace ObjectState

/-- The view of an object. -/
def view (os : ObjectState) : View where
  concrete := os.isByteConcrete
  store := os.concreteStore
  known := os.knownSymbolic
  unflushed := os.isByteUnflushed
  root := os.root
  head := os.head
  size := os.size
  readOnly := os.readOnly
  owner := os.copyOnWriteOwner

@[simp] theorem view_markByteConcrete : (os.markByteConcrete o).view =
    { os.view with concrete := update os.view.concrete o true } := by
  cases h : os.concreteMask with
  | none | some =>
    rw [markByteConcrete, h]
    refine View.ext (funext fun i => ?_) rfl rfl rfl rfl rfl rfl rfl rfl
    simp [view, isByteConcrete, h, update]

@[simp] theorem view_markByteSymbolic : (os.markByteSymbolic o).view =
    { os.view with concrete := update os.view.concrete o false } := by
  refine View.ext (funext fun i => ?_) rfl rfl rfl rfl rfl rfl rfl rfl
  cases h : os.concreteMask <;>
    simp [view, markByteSymbolic, isByteConcrete, h, update]

@[simp] theorem view_markByteUnflushed : (os.markByteUnflushed o).view =
    { os.view with unflushed := update os.view.unflushed o true } := by
  cases h : os.unflushedMask with
  | none | some =>
    rw [markByteUnflushed, h]
    refine View.ext rfl rfl rfl (funext fun i => ?_) rfl rfl rfl rfl rfl
    simp [view, isByteUnflushed, h, update]

/-- The masks of a flush exist, so that marking a byte does nothing else. -/
theorem view_markByteFlushed (h : os.unflushedMask.isSome) :
    (os.markByteFlushed o).view =
    { os.view with unflushed := update os.view.unflushed o false } := by
  obtain ⟨mask, h⟩ := Option.isSome_iff_exists.mp h
  rw [markByteFlushed, h]
  refine View.ext rfl rfl rfl (funext fun i => ?_) rfl rfl rfl rfl rfl
  simp [view, isByteUnflushed, h, update]

@[simp] theorem view_setKnownSymbolic {value : Option Expr} :
    (os.setKnownSymbolic o value).view =
    { os.view with known := update os.view.known o value } := by
  cases h : os.knownSymbolics with
  | some known =>
    rw [setKnownSymbolic.eq_def, h]
    refine View.ext rfl rfl (funext fun i => ?_) rfl rfl rfl rfl rfl rfl
    simp [view, knownSymbolic, h, update]
  | none =>
    cases value <;> rw [setKnownSymbolic.eq_def, h] <;>
      refine View.ext rfl rfl (funext fun i => ?_) rfl rfl rfl rfl rfl rfl <;>
      simp [view, knownSymbolic, h, update]

@[simp] theorem view_startFlush : os.startFlush.view = os.view := by
  cases h : os.unflushedMask with
  | none =>
    rw [startFlush, h]
    refine View.ext rfl rfl rfl (funext fun i => ?_) rfl rfl rfl rfl rfl
    simp [view, isByteUnflushed, h]
  | some mask => rw [startFlush, h]

theorem startFlush_isSome : os.startFlush.unflushedMask.isSome := by
  cases h : os.unflushedMask <;> simp [startFlush, h]

end ObjectState

/-! ## The invariant -/

namespace View

variable {v v' v'' : View}

/-- What holds of an object state under every valuation. -/
structure WF (v : View) : Prop where
  head : v.head.wellTyped
  known : ∀ i < v.size, ∀ e, v.known i = some e → Typed e 8
  cached : ∀ i < v.size, v.unflushed i → v.concrete i ∨ (v.known i).isSome
  exclusive : ∀ i < v.size, v.concrete i → v.known i = none

/-- Under `σ` the bytes of the object are `f`. -/
structure Denotes (σ : Valuation) (v : View) (f : Nat → BitVec 8) : Prop where
  updates : ∃ us, v.head.Denotes σ us ∧ ∀ i < v.size, v.unflushed i = false →
    overlay (baseValue σ v.root) (BitVec.ofNat 32 i) us = some (f i)
  concrete : ∀ i < v.size, v.concrete i → v.store i = f i
  known : ∀ i < v.size, ∀ e, v.known i = some e → VitalSE.Denotes σ e (f i)

/-- How many bytes a flush moves to the updates. -/
def pending (v : View) : Nat :=
  ((Finset.range v.size).filter fun i => v.unflushed i = true).card

/-- The counter of the updates does not wrap around before `n` more of them, or
does not matter, because they are over a symbolic array. -/
def Counted (v : View) (n : Nat) : Prop :=
  v.root.any Array.isSymbolicArray = true ∨ v.head.length + n < 2 ^ 32

theorem Counted.mono {n n' : Nat} (h : v.Counted n) (hroot : v'.root = v.root)
    (hle : v'.head.length + n' ≤ v.head.length + n) : v'.Counted n' := by
  rw [Counted, hroot]
  exact h.imp_right hle.trans_lt

/-- The bytes from `base` on are cached, or the updates that have them can be
counted. -/
def Readable (v : View) (base n : Nat) : Prop :=
  (∀ o, base ≤ o → o < base + n → v.concrete o = true ∨ (v.known o).isSome = true) ∨ v.Counted 0

/-- The same object, in other caches. -/
structure Same (v v' : View) : Prop where
  size : v'.size = v.size
  readOnly : v'.readOnly = v.readOnly
  owner : v'.owner = v.owner
  root : ∀ root, v.root = some root → v'.root = some root

theorem Same.refl : Same v v := ⟨rfl, rfl, rfl, fun _ => id⟩

theorem Same.trans (h : Same v v') (h' : Same v' v'') : Same v v'' :=
  ⟨h'.size.trans h.size, h'.readOnly.trans h.readOnly, h'.owner.trans h.owner,
    fun root hroot => h'.root root (h.root root hroot)⟩

/-- The bytes are kept, under every valuation. -/
structure Keeps (v v' : View) : Prop where
  same : Same v v'
  wf : v'.WF
  denotes : ∀ {σ : Valuation} {f : Nat → BitVec 8}, v.Denotes σ f → v'.Denotes σ f
  counted : v.Counted v.pending → v'.Counted v'.pending

theorem Keeps.refl (h : v.WF) : Keeps v v := ⟨.refl, h, id, id⟩

theorem Keeps.trans (h : Keeps v v') (h' : Keeps v' v'') : Keeps v v'' :=
  ⟨h.same.trans h'.same, h'.wf, h'.denotes ∘ h.denotes, h'.counted ∘ h.counted⟩

end View

/-! ## Flushing -/

theorem ofNat_eq_ofNat_iff {i j n : Nat} (hn : n < 2 ^ 32) (hi : i < n)
    (hj : j < n) : BitVec.ofNat 32 i = BitVec.ofNat 32 j ↔ i = j := by
  rw [← BitVec.toNat_inj, BitVec.toNat_ofNat, BitVec.toNat_ofNat]
  omega

namespace View

variable {v : View} {e : Expr} {f : Nat → BitVec 8}

/-- A cached byte goes to the updates. -/
def flush (v : View) (o : Nat) (e : Expr) : View :=
  { v with
    head := .node v.head (Expr.const o 32) e
    unflushed := update v.unflushed o false }

theorem WF.flush (h : v.WF) (he : Typed e 8) : (v.flush o e).WF where
  head := wellTyped_node.mpr ⟨h.head, typed_const.mpr ⟨by decide, rfl⟩, he⟩
  known := h.known
  cached i hi hu := by
    by_cases hio : i = o
    · simp [View.flush, hio] at hu
    · simp only [View.flush, update_of_ne hio] at hu
      exact h.cached i hi hu
  exclusive := h.exclusive

theorem Denotes.flush (h : v.Denotes σ f) (hsize : v.size < 2 ^ 32)
    (ho : o < v.size) (he : VitalSE.Denotes σ e (f o)) : (v.flush o e).Denotes σ f := by
  obtain ⟨us, hus, hlook⟩ := h.updates
  refine ⟨⟨(BitVec.ofNat 32 o, f o) :: us, denotes_node.mpr ⟨us, _, _, hus,
    denotes_const.mpr ⟨by decide, rfl⟩, he, rfl⟩, fun i hi hu => ?_⟩,
    h.concrete, h.known⟩
  rw [overlay]
  by_cases hio : i = o
  · rw [hio, if_pos rfl]
  · rw [if_neg (mt (ofNat_eq_ofNat_iff hsize hi ho).mp hio)]
    simp only [View.flush, update_of_ne hio] at hu
    exact hlook i hi hu

/-- A byte that was pending is an update now. -/
theorem pending_flush (ho : o < v.size) (hu : v.unflushed o = true) :
    (v.flush o e).pending + 1 = v.pending := by
  have herase : (Finset.range v.size).filter (fun i => (v.flush o e).unflushed i = true) =
      ((Finset.range v.size).filter fun i => v.unflushed i = true).erase o := by
    ext i
    rw [Finset.mem_erase, Finset.mem_filter, Finset.mem_filter]
    by_cases hio : i = o <;> simp [View.flush, hio]
  rw [pending, pending, show (v.flush o e).size = v.size from rfl, herase]
  exact Finset.card_erase_add_one (by simp [ho, hu])

/-- The cache of a byte is dropped. -/
def drop (v : View) (o : Nat) : View :=
  { v with
    concrete := update v.concrete o false
    known := update v.known o none }

theorem drop_concrete {i : Nat} (h : (v.drop o).concrete i) : i ≠ o ∧ v.concrete i := by
  by_cases hio : i = o
  · simp [View.drop, hio] at h
  · simp only [View.drop, update_of_ne hio] at h
    exact ⟨hio, h⟩

theorem drop_known {i : Nat} (h : (v.drop o).known i = some e) : v.known i = some e := by
  by_cases hio : i = o
  · simp [View.drop, hio] at h
  · simpa only [View.drop, update_of_ne hio] using h

theorem WF.drop (h : v.WF) (hu : v.unflushed o = false) : (v.drop o).WF where
  head := h.head
  known i hi e he := h.known i hi e (drop_known he)
  cached i hi hi' := by
    have hio : i ≠ o := by
      rintro rfl
      exact absurd hi' (by simp [View.drop, hu])
    simp only [View.drop, update_of_ne hio]
    exact h.cached i hi hi'
  exclusive i hi hc := by
    obtain ⟨hio, hc⟩ := drop_concrete hc
    simp only [View.drop, update_of_ne hio]
    exact h.exclusive i hi hc

theorem Keeps.flush (h : v.WF) (hsize : v.size < 2 ^ 32) (ho : o < v.size)
    (hu : v.unflushed o = true) (he : Typed e 8)
    (hden : ∀ {σ f}, v.Denotes σ f → VitalSE.Denotes σ e (f o)) : v.Keeps (v.flush o e) where
  same := ⟨rfl, rfl, rfl, fun _ => id⟩
  wf := h.flush he
  denotes hd := hd.flush hsize ho (hden hd)
  counted hc := by
    have := pending_flush (e := e) ho hu
    refine hc.mono rfl ?_
    simp only [View.flush, UpdateNode.length] at this ⊢
    omega

theorem Keeps.drop (h : v.WF) (hu : v.unflushed o = false) : v.Keeps (v.drop o) where
  same := ⟨rfl, rfl, rfl, fun _ => id⟩
  wf := h.drop hu
  denotes hd :=
    { updates := hd.updates
      concrete := fun i hi hc => hd.concrete i hi (drop_concrete hc).2
      known := fun i hi e he => hd.known i hi e (drop_known he) }
  counted := id

end View

namespace ObjectState

theorem extend_eq {index value : Expr} (hi : Typed index 32) (hv : Typed value 8) :
    os.extend index value = .ok { os with head := .node os.head index value } := by
  unfold extend
  rw [if_neg (by simp [hi.getWidth_eq, Array.domain]),
    if_neg (by simp [hv.getWidth_eq, Array.range])]
  rfl

/-- The cached expression of a byte. -/
theorem flushByte_eq (hwf : os.view.WF) (ho : o < os.size)
    (hc : os.isByteConcrete o ∨ (os.knownSymbolic o).isSome) :
    ∃ e, Typed e 8 ∧
      os.flushByte o = .ok { os with head := .node os.head (Expr.const o 32) e } ∧
      ∀ {σ f}, os.view.Denotes σ f → Denotes σ e (f o) := by
  have hi : Typed (Expr.const o 32) 32 := typed_const.mpr ⟨by decide, rfl⟩
  unfold flushByte
  by_cases h : os.isByteConcrete o
  · rw [if_pos h]
    have ht : Typed (.constant ⟨8, os.concreteStore o⟩) 8 := by simp
    refine ⟨_, ht, extend_eq hi ht, fun hd => denotes_constant.mpr ⟨by decide, ?_⟩⟩
    rw [show os.concreteStore o = _ from hd.concrete o ho h]
  · rw [if_neg h]
    obtain ⟨e, he⟩ := Option.isSome_iff_exists.mp (hc.resolve_left h)
    rw [he]
    have ht := hwf.known o ho e he
    exact ⟨e, ht, extend_eq hi ht, fun hd => hd.known o ho e he⟩

theorem view_dropCache (hwf : os.view.WF) (ho : o < os.size) :
    (os.dropCache o).view = os.view.drop o := by
  unfold dropCache
  by_cases hc : os.isByteConcrete o
  · rw [if_pos hc, view_markByteSymbolic]
    have : update os.view.known o none = os.view.known :=
      update_eq_self_iff.mpr (hwf.exclusive o ho hc).symm
    rw [View.drop, this]
  · rw [if_neg hc]
    have : update os.view.concrete o false = os.view.concrete :=
      update_eq_self_iff.mpr (Bool.eq_false_of_not_eq_true hc).symm
    by_cases hk : os.isByteKnownSymbolic o
    · rw [if_pos hk, view_setKnownSymbolic, View.drop, this]
    · rw [if_neg hk, View.drop, this]
      have hnone : os.view.known o = none := by
        simpa [isByteKnownSymbolic, view] using hk
      rw [update_eq_self_iff.mpr hnone.symm]

/-- What flushing a byte leaves: it is not marked unflushed, the marks of the
other bytes stay, and so do all bytes. -/
structure Flushed (o : Nat) (os os' : ObjectState) : Prop where
  keeps : os.view.Keeps os'.view
  unflushed : os'.view.unflushed = update os.view.unflushed o false
  mask : os'.unflushedMask.isSome

/-- With the cache dropped as well. -/
structure Dropped (o : Nat) (os os' : ObjectState) : Prop
    extends Flushed o os os' where
  concrete : os'.view.concrete = update os.view.concrete o false
  known : os'.view.known = update os.view.known o none

theorem update_unflushed (hu : ¬os.isByteUnflushed o) :
    update os.view.unflushed o false = os.view.unflushed :=
  update_eq_self_iff.mpr (Bool.eq_false_of_not_eq_true hu).symm

theorem dropCache_mask (os : ObjectState) (o : Nat) :
    (os.dropCache o).unflushedMask = os.unflushedMask := by
  unfold dropCache
  split
  · rfl
  · split
    · rw [setKnownSymbolic.eq_def]
      split <;> rfl
    · rfl

theorem flushByteForRead_ok (hwf : os.view.WF) (hmask : os.unflushedMask.isSome)
    (ho : o < os.size) : ∃ os', os.flushByteForRead o = .ok os' ∧ Flushed o os os' := by
  unfold flushByteForRead
  by_cases hu : os.isByteUnflushed o
  · rw [if_pos hu]
    obtain ⟨e, he, hflush, hden⟩ := flushByte_eq hwf ho (hwf.cached o ho hu)
    rw [hflush]
    refine ⟨_, rfl, ?_⟩
    have hview : (ObjectState.markByteFlushed
        { os with head := .node os.head (Expr.const o 32) e } o).view =
        os.view.flush o e := view_markByteFlushed hmask
    refine ⟨?_, ?_, ?_⟩
    · rw [hview]
      exact .flush hwf os.size_lt ho hu he hden
    · rw [hview]
      rfl
    · obtain ⟨mask, hm⟩ := Option.isSome_iff_exists.mp hmask
      simp [markByteFlushed, hm]
  · rw [if_neg hu]
    exact ⟨os, rfl, .refl hwf, (update_unflushed hu).symm, hmask⟩

theorem flushByteForWrite_ok (hwf : os.view.WF) (hmask : os.unflushedMask.isSome)
    (ho : o < os.size) : ∃ os', os.flushByteForWrite o = .ok os' ∧ Dropped o os os' := by
  unfold flushByteForWrite
  by_cases hu : os.isByteUnflushed o
  · rw [if_pos hu]
    obtain ⟨e, he, hflush, hden⟩ := flushByte_eq hwf ho (hwf.cached o ho hu)
    rw [hflush]
    refine ⟨_, rfl, ?_⟩
    set os1 : ObjectState := { os with head := .node os.head (Expr.const o 32) e }
    have hwf1 : os1.view.WF := ⟨(hwf.flush (o := o) he).head, hwf.known, hwf.cached, hwf.exclusive⟩
    have hview : ((os1.dropCache o).markByteFlushed o).view =
        (os.view.flush o e).drop o := by
      rw [view_markByteFlushed (by rw [dropCache_mask]; exact hmask),
        view_dropCache hwf1 ho]
      rfl
    refine ⟨⟨?_, ?_, ?_⟩, ?_, ?_⟩
    · rw [hview]
      have hkeeps := View.Keeps.flush hwf os.size_lt ho hu he hden
      exact hkeeps.trans (.drop hkeeps.wf (by simp [View.flush]))
    · rw [hview]
      rfl
    · obtain ⟨mask, hm⟩ := Option.isSome_iff_exists.mp
        (dropCache_mask os1 o ▸ hmask)
      simp [markByteFlushed, hm]
    · rw [hview]
      rfl
    · rw [hview]
      rfl
  · rw [if_neg hu]
    have hview := view_dropCache hwf ho
    refine ⟨_, rfl, ⟨?_, ?_, ?_⟩, ?_, ?_⟩
    · rw [hview]
      exact .drop hwf (Bool.eq_false_of_not_eq_true hu)
    · rw [hview]
      exact (update_unflushed hu).symm
    · rw [dropCache_mask]
      exact hmask
    · rw [hview]
      rfl
    · rw [hview]
      rfl

section

variable (step : ObjectState → Nat → Except Abort ObjectState)
  (Done : View → Nat → Prop)
  (hstep : ∀ {os : ObjectState} {o : Nat}, os.view.WF → os.unflushedMask.isSome →
    o < os.size → ∃ os', step os o = .ok os' ∧ os.view.Keeps os'.view ∧
      os'.unflushedMask.isSome ∧ Done os'.view o ∧ ∀ i, Done os.view i → Done os'.view i)

include hstep

/-- A loop of flush steps: what a step does to its byte, and leaves done to the
others, holds of all bytes at the end. -/
theorem foldlM_flush : ∀ (l : List Nat) (os : ObjectState), os.view.WF →
    os.unflushedMask.isSome → (∀ o ∈ l, o < os.size) →
      ∃ os', l.foldlM step os = .ok os' ∧ os.view.Keeps os'.view ∧
        (∀ i ∈ l, Done os'.view i) ∧ ∀ i, Done os.view i → Done os'.view i := by
  intro l
  induction l with
  | nil =>
    intro os hwf _ _
    exact ⟨os, rfl, .refl hwf, by simp, fun _ => id⟩
  | cons o l ih =>
    intro os hwf hmask hl
    obtain ⟨os1, hrun, hkeeps, hmask1, hdone, hstay⟩ :=
      hstep hwf hmask (hl o (by simp))
    obtain ⟨os2, hrun', hkeeps', hdone', hstay'⟩ := ih os1 hkeeps.wf hmask1
      fun o' ho' => by
        have : os1.size = os.size := hkeeps.same.size
        rw [this]
        exact hl o' (by simp [ho'])
    refine ⟨os2, ?_, hkeeps.trans hkeeps', ?_, fun i h => hstay' i (hstay i h)⟩
    · rw [List.foldlM_cons, hrun]
      exact hrun'
    · intro i hi
      rcases List.mem_cons.mp hi with rfl | hi
      · exact hstay' i hdone
      · exact hdone' i hi

theorem flushRange_ok (hwf : os.view.WF) :
    ∃ os', (List.range' 0 os.size).foldlM step os.startFlush = .ok os' ∧
      os.view.Keeps os'.view ∧ ∀ i < os.size, Done os'.view i := by
  have hsize : os.startFlush.size = os.size := congrArg View.size view_startFlush
  obtain ⟨os', hrun, hkeeps, hdone, -⟩ := foldlM_flush step Done hstep
    (List.range' 0 os.size) os.startFlush (by rw [view_startFlush]; exact hwf)
    startFlush_isSome fun o ho => by simpa [hsize] using ho
  rw [view_startFlush] at hkeeps
  exact ⟨os', hrun, hkeeps, fun i hi => hdone i (by simpa using hi)⟩

end

/-- All bytes are in the updates. -/
theorem flushRangeForRead_ok (hwf : os.view.WF) :
    ∃ os', os.flushRangeForRead 0 os.size = .ok os' ∧ os.view.Keeps os'.view ∧
      ∀ i < os.size, os'.view.unflushed i = false := by
  refine flushRange_ok flushByteForRead (fun v i => v.unflushed i = false)
    (fun {os o} hwf hmask ho => ?_) hwf
  obtain ⟨os', hrun, h⟩ := flushByteForRead_ok hwf hmask ho
  refine ⟨os', hrun, h.keeps, h.mask, by simp [h.unflushed], fun i hi => ?_⟩
  rw [h.unflushed, Function.update_apply]
  split
  · rfl
  · exact hi

/-- All bytes are in the updates, and nowhere else. -/
theorem flushRangeForWrite_ok (hwf : os.view.WF) :
    ∃ os', os.flushRangeForWrite 0 os.size = .ok os' ∧ os.view.Keeps os'.view ∧
      ∀ i < os.size, os'.view.unflushed i = false ∧
        os'.view.concrete i = false ∧ os'.view.known i = none := by
  refine flushRange_ok flushByteForWrite
    (fun v i => v.unflushed i = false ∧ v.concrete i = false ∧ v.known i = none)
    (fun {os o} hwf hmask ho => ?_) hwf
  obtain ⟨os', hrun, h⟩ := flushByteForWrite_ok hwf hmask ho
  refine ⟨os', hrun, h.keeps, h.mask, by simp [h.unflushed, h.concrete, h.known],
    fun i hi => ?_⟩
  rw [h.unflushed, h.concrete, h.known]
  simp only [Function.update_apply]
  split
  · exact ⟨rfl, rfl, rfl⟩
  · exact hi

end ObjectState

/-! ## The constant array below the updates -/

/-- Writes and what they write, both oldest first. -/
def WritesDenote (σ : Valuation) :
    List (Expr × Expr) → List (BitVec 32 × BitVec 8) → Prop :=
  List.Forall₂ fun w v => Denotes σ w.1 v.1 ∧ Denotes σ w.2 v.2

/-- All writes of a list of updates, the oldest first. -/
def UpdateNode.writes (n : UpdateNode) : List (Expr × Expr) := n.newest n.length

theorem UpdateNode.writes_node {next : UpdateNode} {i v : Expr} :
    (UpdateNode.node next i v).writes = next.writes ++ [(i, v)] := rfl

theorem UpdateNode.length_writes (n : UpdateNode) : n.writes.length = n.length := by
  cases n with
  | null => rfl
  | node next i v => simp [writes_node, length_writes next, length]

theorem UpdateNode.writes_denote : ∀ {n : UpdateNode}
    {us : List (BitVec 32 × BitVec 8)}, n.Denotes σ us →
      WritesDenote σ n.writes us.reverse
  | .null, us, h => by
    rw [denotes_null.mp h]
    exact .nil
  | .node next i v, us, h => by
    obtain ⟨us', j, b, hnext, hi, hv, rfl⟩ := denotes_node.mp h
    rw [List.reverse_cons, writes_node]
    exact List.rel_append (writes_denote hnext)
      (.cons ⟨hi, hv⟩ .nil)

theorem UpdateNode.writes_typed : ∀ {n : UpdateNode}, n.wellTyped →
    ∀ w ∈ n.writes, Typed w.1 32 ∧ Typed w.2 8
  | .null, _ => by simp [writes, newest]
  | .node next i v, h => by
    obtain ⟨hnext, hi, hv⟩ := wellTyped_node.mp h
    intro w hw
    rw [writes_node, List.mem_append, List.mem_singleton] at hw
    rcases hw with hw | rfl
    · exact writes_typed hnext w hw
    · exact ⟨hi, hv⟩

theorem overlay_congr {base' : BitVec 32 → Option (BitVec 8)} (h : base i = base' i) :
    ∀ {us : List (BitVec 32 × BitVec 8)}, overlay base i us = overlay base' i us
  | [] => h
  | (j, v) :: us => by rw [overlay, overlay, overlay_congr h]

/-- Update nodes for writes, over others. -/
def UpdateNode.extendAll (n : UpdateNode) (ws : List (Expr × Expr)) :
    UpdateNode :=
  ws.foldl (fun n w => .node n w.1 w.2) n

theorem UpdateNode.length_extendAll : ∀ {n : UpdateNode},
    (n.extendAll ws).length = n.length + ws.length := by
  induction ws with
  | nil => exact fun {n} => rfl
  | cons w ws ih =>
    intro n
    rw [extendAll, List.foldl_cons]
    exact ih.trans (by simp only [length, List.length_cons]; omega)

theorem UpdateNode.extendAll_denotes {vs : List (BitVec 32 × BitVec 8)} (h : WritesDenote σ ws vs) :
    ∀ {n : UpdateNode} {us : List (BitVec 32 × BitVec 8)}, n.Denotes σ us →
      (n.extendAll ws).Denotes σ (vs.reverse ++ us) := by
  induction h with
  | nil => exact fun hn => hn
  | cons hw _ ih =>
    intro n us hn
    rw [List.reverse_cons, List.append_assoc]
    exact ih (denotes_node.mpr ⟨us, _, _, hn, hw.1, hw.2, rfl⟩)

theorem UpdateNode.extendAll_wellTyped :
    ∀ {n : UpdateNode}, n.wellTyped → (∀ w ∈ ws, Typed w.1 32 ∧ Typed w.2 8) →
      (n.extendAll ws).wellTyped := by
  induction ws with
  | nil => exact fun hn _ => hn
  | cons w ws ih =>
    intro n hn hws
    have hw := hws w (by simp)
    exact ih (wellTyped_node.mpr ⟨hn, hw.1, hw.2⟩)
      fun w' hw' => hws w' (by simp [hw'])

namespace ObjectState

/-- The writes that are pulled off are the first ones, and the array is what
they leave. -/
theorem pullConcrete_spec {contents : List (BitVec 8)}
    (hsize : contents.length < 2 ^ 32) (ws : List (Expr × Expr)) :
    ∃ k, (pullConcrete contents ws).2 = ws.drop k ∧
      ∀ {σ : Valuation} {vs : List (BitVec 32 × BitVec 8)}, WritesDenote σ ws vs →
        ∀ i < contents.length, (pullConcrete contents ws).1[i]? =
          overlay (fun j => contents[j.toNat]?) (BitVec.ofNat 32 i) (vs.take k).reverse := by
  fun_induction pullConcrete contents ws with
  | case1 contents index value ws ih =>
    obtain ⟨k, hdrop, hval⟩ := ih (by simpa using hsize)
    refine ⟨k + 1, by simpa using hdrop, fun {σ vs} h i hi => ?_⟩
    cases h with
    | cons hw hrest =>
      next v vs =>
      rw [hval hrest i (by simpa using hi), List.take_succ_cons,
        List.reverse_cons, overlay_append]
      refine overlay_congr ?_
      obtain ⟨hidx, hv⟩ := hw
      obtain ⟨-, rfl⟩ := denotes_constant.mp hidx
      obtain ⟨-, rfl⟩ := denotes_constant.mp hv
      have hto : (BitVec.ofNat 32 i).toNat = i := by
        rw [BitVec.toNat_ofNat, Nat.mod_eq_of_lt (hi.trans hsize)]
      simp only [overlay, hto, APInt.toNat, BitVec.setWidth_eq]
      rw [List.getElem?_set]
      by_cases hiv : v.1.toNat = i
      · subst hiv
        rw [if_pos rfl, if_pos hi, if_pos (by simp)]
      · rw [if_neg hiv, if_neg]
        intro h
        exact hiv (h ▸ hto)
  | case2 contents ws _ =>
    refine ⟨0, rfl, fun {σ vs} _ i hi => ?_⟩
    simp only [List.take_zero, List.reverse_nil, overlay]
    rw [BitVec.toNat_ofNat, Nat.mod_eq_of_lt (hi.trans hsize)]

theorem extendAll_ok : ∀ {ws : List (Expr × Expr)} {os : ObjectState},
    (∀ w ∈ ws, Typed w.1 32 ∧ Typed w.2 8) →
    os.extendAll ws = .ok { os with head := os.head.extendAll ws } := by
  intro ws
  induction ws with
  | nil => exact fun _ => rfl
  | cons w ws ih =>
    intro os hws
    have hw := hws w (by simp)
    rw [extendAll, List.foldlM_cons, extend_eq hw.1 hw.2]
    exact ih fun w' hw' => hws w' (by simp [hw'])

/-- All writes are collected, as long as they can be counted. -/
theorem collectWrites_eq (h : os.head.length < 2 ^ 32) : os.collectWrites = os.head.writes := by
  rw [collectWrites, os.head.getSize_eq, BitVec.toNat_ofNat, Nat.mod_eq_of_lt h]
  rfl

theorem constantArray_initialValue {i id : Nat} (hi : i < os.size) :
    (os.constantArray id).initialValue σ i =
      (pullConcrete (List.replicate os.size 0) os.collectWrites).1[i]? := by
  have hne : (os.constantArray id).constantValues ≠ [] := by
    intro h
    have := congrArg List.length h
    simp only [constantArray, pullConcrete_length, List.length_replicate, List.length_nil] at this
    omega
  rw [Array.initialValue, if_pos]
  · rfl
  · simpa [Array.isConstantArray, Array.isSymbolicArray] using hne

/-- `getUpdates` gives the updates over a root, and the bytes stay. -/
theorem getUpdates_runs (hwf : os.view.WF) (hcount : os.view.Counted 0) (id : Nat) :
    Runs getUpdates (os, id) fun r s => s.1.view =
        { os.view with root := some r.1, head := r.2 } ∧
      os.view.Keeps s.1.view ∧ s.1.view.Counted 0 := by
  refine .get_bind ?_
  simp only
  split
  · next root hroot =>
    refine .pure ⟨?_, .refl hwf, hcount⟩
    exact View.ext rfl rfl rfl rfl hroot rfl rfl rfl rfl
  · next hroot =>
    have hlen : (List.replicate os.size (0 : BitVec 8)).length < 2 ^ 32 := by
      simpa using os.size_lt
    have hhead : os.head.length < 2 ^ 32 := hcount.resolve_left (by simp [view, hroot])
    have hcollect := os.collectWrites_eq hhead
    obtain ⟨k, hdrop, hval⟩ := pullConcrete_spec hlen os.head.writes
    have htyped : ∀ w ∈ os.head.writes.drop k, Typed w.1 32 ∧ Typed w.2 8 :=
      fun w hw => os.head.writes_typed hwf.head w (List.mem_of_mem_drop hw)
    rw [hcollect, hdrop]
    refine .except_bind (extendAll_ok htyped) ?_
    refine .set_bind ?_
    -- there are no more updates than before
    have hlength : (UpdateNode.null.extendAll (os.head.writes.drop k)).length ≤
        os.head.length := by
      rw [UpdateNode.length_extendAll, List.length_drop, os.head.length_writes, UpdateNode.length]
      omega
    have hnew : ∀ root, os.view.root = some root → some (os.constantArray (id + 1)) = some root :=
      fun root h => absurd (hroot.symm.trans h) (by simp)
    refine .pure ⟨rfl, ⟨⟨rfl, rfl, rfl, hnew⟩, ⟨?_, hwf.known, hwf.cached, hwf.exclusive⟩,
      fun {σ f} hd => ⟨?_, hd.concrete, hd.known⟩, fun hc => .inr ?_⟩,
      .inr (Nat.lt_of_le_of_lt hlength hhead)⟩
    · exact UpdateNode.extendAll_wellTyped wellTyped_null htyped
    · -- The oldest writes are now in the array, the others above it.
      obtain ⟨us, hus, hlook⟩ := hd.updates
      have hws := UpdateNode.writes_denote hus
      refine ⟨(us.reverse.drop k).reverse ++ [],
        UpdateNode.extendAll_denotes (List.forall₂_drop k hws)
          (denotes_null.mpr rfl), fun i hi hu => ?_⟩
      have hto : (BitVec.ofNat 32 i).toNat = i := by
        rw [BitVec.toNat_ofNat, Nat.mod_eq_of_lt (Nat.lt_trans hi os.size_lt)]
      have hold := hlook i hi hu
      rw [show us = (us.reverse.drop k).reverse ++ (us.reverse.take k).reverse by
        rw [← List.reverse_append, List.take_append_drop, List.reverse_reverse],
        overlay_append] at hold
      rw [List.append_nil, ← hold]
      refine overlay_congr ?_
      have hi' : i < os.size := hi
      rw [show os.view.root = none from hroot]
      calc (os.constantArray (id + 1)).initialValue σ (BitVec.ofNat 32 i).toNat
        _ = (pullConcrete (List.replicate os.size 0) os.head.writes).1[i]? := by
          rw [hto, ← hcollect]
          exact constantArray_initialValue hi'
        _ = _ := hval hws i (by simpa using hi')
        _ = overlay (baseValue σ none) (BitVec.ofNat 32 i) _ := by
          refine overlay_congr ?_
          simp [hto, hi', baseValue]
    · have hc := hc.resolve_left (by simp [view, hroot])
      exact Nat.lt_of_le_of_lt (Nat.add_le_add_right hlength _) hc

end ObjectState

end VitalSE
