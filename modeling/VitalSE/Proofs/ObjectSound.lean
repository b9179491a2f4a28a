import VitalSE.Proofs.AccessSound

/-!
# An object state is an array of bytes

One access keeps the invariant of an object state and does to its bytes what it
does to a plain array of bytes. By induction this carries over to a sequence of
accesses: whatever moved between the caches and the updates in the meantime, a
read gives the bytes that the writes before it left, under every valuation for
which the offsets are in the bounds.
-/

namespace VitalSE

open ObjectState

variable {os os' : ObjectState} {array : Array}

namespace Access

/-- Where the access begins. -/
def offset : Access → Expr
  | read offset _ => offset
  | write offset _ => offset

/-- The bits that are accessed. -/
def width : Access → Nat
  | read _ width => width
  | write _ value => value.getWidth

/-- An access that may be made to an object: its width is one that memory holds
and, under every valuation at hand, its offset is in the bounds and what it
writes has a value. Its offset is one that the constructors build. -/
structure Allowed (A : Valuation → Prop) (size : Nat) (a : Access) : Prop where
  storable : Storable a.width
  reduced : a.offset.Reduced
  inBounds : ∀ σ, A σ → ∃ b, OffsetAt a.offset a.offset.getWidth σ b ∧
    b + getMinBytesForWidth a.width ≤ size
  value : ∀ σ, A σ → ∀ offset value, a = write offset value →
    ∃ y : BitVec value.getWidth, Denotes σ value y

/-- A read needs updates that can be counted. -/
def ReadableFrom (os : ObjectState) : Access → Prop
  | read offset width => os.ReadableAt offset width
  | write _ _ => True

end Access

/-- A plain array of bytes under `σ`. The accesses take it from `f` to `f'`, and
the results `rs` of the reads are the values that it held. -/
inductive PlainBytes (ctx : Context) (σ : Valuation) :
    List Access → List (Option Expr) → (Nat → BitVec 8) → (Nat → BitVec 8) → Prop
  | nil {f} : PlainBytes ctx σ [] [] f f
  | read {offset w b r as rs f f'} {y : BitVec w}
      (hoffset : OffsetAt offset offset.getWidth σ b) (hresult : Denotes σ r y)
      (hloads : Loads ctx f b y) (hrest : PlainBytes ctx σ as rs f f') :
      PlainBytes ctx σ (.read offset w :: as) (some r :: rs) f f'
  | write {offset value b as rs f g f'} {y : BitVec value.getWidth}
      (hoffset : OffsetAt offset offset.getWidth σ b) (hvalue : Denotes σ value y)
      (hstores : Stores ctx f b y g) (hrest : PlainBytes ctx σ as rs g f') :
      PlainBytes ctx σ (.write offset value :: as) (none :: rs) f f'

namespace ObjectState

/-- Under every valuation in `A` the object state has bytes, given by `f`. -/
structure Holds (A : Valuation → Prop) (f : Valuation → Nat → BitVec 8)
    (os : ObjectState) : Prop where
  wf : os.view.WF
  denotes : ∀ σ, A σ → os.view.Denotes σ (f σ)

/-- At each read of the run the updates can be counted. -/
def Readable (opt : Bool) (ctx : Context) : List Access → ObjectState × Nat → Prop
  | [], _ => True
  | a :: as, s => a.ReadableFrom s.1 ∧
      ∀ r s', access opt ctx a s = .ok (r, s') → Readable opt ctx as s'

section

variable {A : Valuation → Prop} {f : Valuation → Nat → BitVec 8} {a : Access} {opt : Bool}
  {ctx : Context} {id : Nat}

/-- One access does what it does to plain bytes. -/
theorem access_runs (hA : ∃ σ, A σ) (h : os.Holds A f)
    (ha : a.Allowed A os.size) (hread : a.ReadableFrom os) :
    Runs (access opt ctx a) (os, id) fun r s => os.view.Same s.1.view ∧
      ∃ g, s.1.Holds A g ∧ ∀ σ, A σ → ∀ {as rs f'},
        PlainBytes ctx σ as rs (g σ) f' →
          PlainBytes ctx σ (a :: as) (r :: rs) (f σ) f' := by
  obtain ⟨σ0, hσ0⟩ := hA
  obtain ⟨b0, h₀, hle0⟩ := ha.inBounds σ0 hσ0
  have ht : Typed a.offset a.offset.getWidth := h₀.choose_spec.1.typed
  cases a with
  | read offset w =>
    refine .bind (read_runs opt ctx h.wf hread ha.storable ht ha.reduced
      ⟨σ0, b0, h₀, hle0⟩ id) ?_
    rintro r ⟨os', id'⟩ ⟨hkeeps, -, hloads⟩
    refine .pure ⟨hkeeps.same, f, ⟨hkeeps.wf, fun σ hσ =>
      hkeeps.denotes (h.denotes σ hσ)⟩, fun σ hσ as rs f' hrest => ?_⟩
    obtain ⟨b, hb, hle⟩ := ha.inBounds σ hσ
    obtain ⟨y, hy, hload⟩ := hloads (h.denotes σ hσ) hb hle
    exact .read hb hy hload hrest
  | write offset value =>
    obtain ⟨y0, hy0⟩ := ha.value σ0 hσ0 offset value rfl
    obtain ⟨os', hrun, hw⟩ := write_writes h.wf ha.storable opt ctx ht
      ha.reduced hy0.typed
    have hstores : ∀ σ, A σ → ∃ g b, ∃ y : BitVec value.getWidth,
        OffsetAt offset offset.getWidth σ b ∧ Denotes σ value y ∧
          os'.view.Denotes σ g ∧ Stores ctx (f σ) b y g := by
      intro σ hσ
      obtain ⟨b, hb, hle⟩ := ha.inBounds σ hσ
      obtain ⟨y, hy⟩ := ha.value σ hσ offset value rfl
      obtain ⟨g, hg, hst⟩ := hw.stores (h.denotes σ hσ) hb hle hy
      exact ⟨g, b, y, hb, hy, hg, hst⟩
    classical
    refine .get_bind (.except_bind hrun (.set_bind (.pure
      ⟨hw.same, fun σ => if hσ : A σ then (hstores σ hσ).choose else f σ,
        ⟨hw.wf, fun σ hσ => ?_⟩, fun σ hσ as rs f' hrest => ?_⟩)))
    · obtain ⟨b, y, -, -, hg, -⟩ := (hstores σ hσ).choose_spec
      simpa only [dif_pos hσ] using hg
    · obtain ⟨b, y, hb, hy, -, hst⟩ := (hstores σ hσ).choose_spec
      simp only [dif_pos hσ] at hrest
      exact .write hb hy hst hrest

/-- So does a sequence of accesses. -/
theorem accesses_runs (hA : ∃ σ, A σ) {as : List Access}
    (h : os.Holds A f) (has : ∀ a ∈ as, a.Allowed A os.size)
    (hread : Readable opt ctx as (os, id)) :
    Runs (accesses opt ctx as) (os, id) fun rs s => s.1.size = os.size ∧
      ∃ g, s.1.Holds A g ∧ ∀ σ, A σ → PlainBytes ctx σ as rs (f σ) (g σ) := by
  induction as generalizing os f id with
  | nil => exact .pure ⟨rfl, f, h, fun σ _ => .nil⟩
  | cons a as ih =>
    refine .bind (access_runs hA h (has a (by simp)) hread.1).and_eq ?_
    rintro r ⟨os1, id1⟩ ⟨⟨hsame, g, hg, hstep⟩, hrun⟩
    have hsize : os1.size = os.size := hsame.size
    have has' : ∀ a ∈ as, a.Allowed A os1.size := by
      intro a ha
      rw [hsize]
      exact has a (by simp [ha])
    refine .bind (ih hg has' (hread.2 r (os1, id1) hrun)) ?_
    rintro rs ⟨os2, id2⟩ ⟨hsize', g', hg', hrest⟩
    exact .pure ⟨hsize'.trans hsize, g', hg', fun σ hσ => hstep σ hσ (hrest σ hσ)⟩

/-- The updates of a symbolic array are never counted. -/
theorem readable_of_symbolic (hA : ∃ σ, A σ) {as : List Access} (h : os.Holds A f)
    (has : ∀ a ∈ as, a.Allowed A os.size) (hroot : os.root = some array)
    (hsym : array.isSymbolicArray = true) : Readable opt ctx as (os, id) := by
  have hany : ∀ {os : ObjectState}, os.root = some array →
      os.view.root.any Array.isSymbolicArray = true := by
    intro os hroot
    simp [view, hroot, hsym]
  induction as generalizing os f id with
  | nil => trivial
  | cons a as ih =>
    have hread : a.ReadableFrom os := by
      cases a with
      | read offset w =>
        rw [Access.ReadableFrom, ReadableAt]
        split
        · exact .inr (.inl (hany hroot))
        · exact .inl (hany hroot)
      | write => trivial
    refine ⟨hread, fun r s hrun => ?_⟩
    obtain ⟨r', s', hrun', hsame, g, hg, -⟩ := access_runs hA h (has a (by simp)) hread
    obtain ⟨rfl, rfl⟩ := Prod.mk.inj (Except.ok.inj (hrun.symm.trans hrun'))
    refine ih hg (fun a ha => ?_) (hsame.root array hroot)
    rw [show s.1.size = os.size from hsame.size]
    exact has a (by simp [ha])

end

/-! ## New objects -/

/-- The object states that the constructors and the initializers make, with
their first bytes. -/
inductive Fresh : ObjectState → (Valuation → Nat → BitVec 8) → Prop
  | ofObject (useConstantArrays mo id) :
      Fresh (ofObject useConstantArrays mo id) fun _ _ => 0
  | initializeToZero (useConstantArrays mo id) :
      Fresh (ObjectState.ofObject useConstantArrays mo id).initializeToZero
        fun _ _ => 0
  | initializeToRandom (useConstantArrays mo id) :
      Fresh (ObjectState.ofObject useConstantArrays mo id).initializeToRandom
        fun _ _ => 0xAB
  | ofArray {mo array os} (hsize : array.size = mo.size)
      (hnew : ObjectState.ofArray mo array = .ok os) :
      Fresh os fun σ i => (array.initialValue σ i).getD 0

/-- A state with all its bytes in the concrete store. -/
theorem holds_of_concrete (os : ObjectState) (A : Valuation → Prop)
    (hhead : os.head = .null) (hmask : os.concreteMask = none)
    (hknown : os.knownSymbolics = none) (hflush : os.unflushedMask = none) :
    os.Holds A fun _ => os.concreteStore where
  wf := by
    refine ⟨?_, fun i _ e he => ?_, fun i _ _ => .inl ?_, fun i _ _ => ?_⟩
    · simp [view, hhead]
    · simp [view, knownSymbolic, hknown] at he
    · simp [view, isByteConcrete, hmask]
    · simp [view, knownSymbolic, hknown]
  denotes σ _ := by
    refine ⟨⟨[], ?_, fun i _ hu => ?_⟩, fun i _ _ => rfl, fun i _ e he => ?_⟩
    · rw [show os.view.head = .null from hhead]
      exact denotes_null.mpr rfl
    · simp [view, isByteUnflushed, hflush] at hu
    · simp [view, knownSymbolic, hknown] at he

/-- The step of `makeSymbolic`. -/
def symbolicByte (os : ObjectState) (i : Nat) : ObjectState :=
  ((os.markByteSymbolic i).setKnownSymbolic i none).markByteFlushed i

/-- After the first `n` steps of `makeSymbolic`. The first one marks all bytes
flushed, as it creates the mask. -/
structure MadeSymbolic (n : Nat) (os os' : ObjectState) : Prop where
  root : os'.root = os.root
  head : os'.head = os.head
  size : os'.size = os.size
  concrete : ∀ i < n, os'.isByteConcrete i = false
  known : ∀ i, os'.knownSymbolic i = none
  flushed : 0 < n → os'.unflushedMask = some fun _ => false

theorem MadeSymbolic.step {n : Nat} (hmask : os.unflushedMask = none)
    (h : MadeSymbolic n os os') (h0 : n = 0 → os' = os) :
    MadeSymbolic (n + 1) os (os'.symbolicByte n) := by
  have hview : ∀ o : ObjectState, (o.markByteFlushed n).root = o.root ∧
      (o.markByteFlushed n).head = o.head ∧ (o.markByteFlushed n).size = o.size ∧
      (o.markByteFlushed n).isByteConcrete = o.isByteConcrete ∧
      (o.markByteFlushed n).knownSymbolic = o.knownSymbolic := by
    intro o
    unfold markByteFlushed
    split <;> exact ⟨rfl, rfl, rfl, rfl, rfl⟩
  obtain ⟨hr, hh, hs, hc, hk⟩ :=
    hview ((os'.markByteSymbolic n).setKnownSymbolic n none)
  have hv : ((os'.markByteSymbolic n).setKnownSymbolic n none).view = _ :=
    view_setKnownSymbolic
  rw [view_markByteSymbolic] at hv
  refine ⟨hr.trans ?_, hh.trans ?_, hs.trans ?_, fun i hi => ?_, fun i => ?_,
    fun _ => ?_⟩
  · exact (congrArg View.root hv).trans h.root
  · exact (congrArg View.head hv).trans h.head
  · exact (congrArg View.size hv).trans h.size
  · rw [symbolicByte, hc]
    refine (congrFun (congrArg View.concrete hv) i).trans ?_
    by_cases hin : i = n
    · simp [hin]
    · simp only [Function.update_of_ne hin]
      exact h.concrete i (by omega)
  · rw [symbolicByte, hk]
    refine (congrFun (congrArg View.known hv) i).trans ?_
    by_cases hin : i = n
    · simp [hin]
    · simp only [Function.update_of_ne hin]
      exact h.known i
  · have hm : ((os'.markByteSymbolic n).setKnownSymbolic n none).unflushedMask =
        os'.unflushedMask := by
      unfold setKnownSymbolic
      split <;> rfl
    rw [symbolicByte, markByteFlushed, hm]
    rcases Nat.eq_zero_or_pos n with hn | hn
    · rw [h0 hn, hmask]
    · rw [h.flushed hn]
      simp

theorem madeSymbolic (os : ObjectState) (hmask : os.unflushedMask = none)
    (hknown : os.knownSymbolics = none) (n : Nat) :
    MadeSymbolic n os ((List.range n).foldl symbolicByte os) := by
  induction n with
  | zero =>
    refine ⟨rfl, rfl, rfl, by simp, fun i => ?_, by simp⟩
    simp [knownSymbolic, hknown]
  | succ n ih =>
    rw [List.range_succ, List.foldl_append]
    exact ih.step hmask (by rintro rfl; rfl)

theorem initialValue_isSome {i : Nat} (σ : Valuation) (hi : i < array.size) :
    (array.initialValue σ i).isSome := by
  unfold Array.initialValue
  split
  · next hc =>
    simpa [Array.length_constantValues hc] using hi
  · rfl

/-- A state all of whose bytes are those of the array. -/
theorem MadeSymbolic.holds {n : Nat} (h : MadeSymbolic n os os')
    (A : Valuation → Prop) (hn : os.size = n) (hroot : os.root = some array)
    (hsize : array.size = n) (hhead : os.head = .null) :
    os'.Holds A fun σ i => (array.initialValue σ i).getD 0 where
  wf := by
    refine ⟨?_, fun i _ e he => ?_, fun i hi hu => ?_, fun i _ _ => h.known i⟩
    · simp [view, h.head, hhead]
    · rw [show os'.view.known i = none from h.known i] at he
      cases he
    · have hi : i < n := hn ▸ h.size ▸ hi
      simp [view, isByteUnflushed, h.flushed (by omega)] at hu
  denotes σ _ := by
    refine ⟨⟨[], ?_, fun i hi _ => ?_⟩, fun i hi hc => ?_, fun i _ e he => ?_⟩
    · rw [show os'.view.head = .null from h.head.trans hhead]
      exact denotes_null.mpr rfl
    · have hi : i < n := hn ▸ h.size ▸ hi
      have hlt : i < 2 ^ 32 := by
        have := array.size_lt
        omega
      rw [overlay, show os'.view.root = some array from h.root.trans hroot,
        baseValue, BitVec.toNat_ofNat, Nat.mod_eq_of_lt hlt]
      obtain ⟨v, hv⟩ := Option.isSome_iff_exists.mp
        (initialValue_isSome σ (hsize ▸ hi))
      rw [hv, Option.getD_some]
    · have hi : i < n := hn ▸ h.size ▸ hi
      simp [view, h.concrete i hi] at hc
    · rw [show os'.view.known i = none from h.known i] at he
      cases he

/-- A new object holds its first bytes. -/
theorem Fresh.holds {init : Valuation → Nat → BitVec 8} (h : Fresh os init)
    (A : Valuation → Prop) : os.Holds A init := by
  cases h with
  | ofObject u mo id =>
    exact holds_of_concrete (ObjectState.ofObject u mo id) A rfl rfl rfl rfl
  | initializeToZero u mo id =>
    exact holds_of_concrete (ObjectState.ofObject u mo id).initializeToZero A
      rfl rfl rfl rfl
  | initializeToRandom u mo id =>
    exact holds_of_concrete (ObjectState.ofObject u mo id).initializeToRandom A
      rfl rfl rfl rfl
  | @ofArray mo array _ hsize hnew =>
    obtain rfl := Except.ok.inj hnew
    have hm := madeSymbolic ⟨0, fun _ => 0, none, none, none, some array, .null,
      mo.size, false, mo.size_lt⟩ rfl rfl mo.size
    exact hm.holds A rfl rfl hsize rfl

/-- An object refines a plain array of bytes: from its creation on, every
sequence of accesses with offsets in the bounds runs, and under every valuation
its reads give what the writes before them left, starting from the first bytes
of the object. -/
theorem accesses_refine (constArrayOpt : Bool) (ctx : Context)
    (A : Valuation → Prop) (hA : ∃ σ, A σ) (os : ObjectState)
    (init : Valuation → Nat → BitVec 8) (hos : Fresh os init) (id : Nat)
    (as : List Access) (has : ∀ a ∈ as, a.Allowed A os.size)
    (hread : Readable constArrayOpt ctx as (os, id)) :
    Runs (accesses constArrayOpt ctx as) (os, id) fun rs _ =>
      ∀ σ, A σ → ∃ f, PlainBytes ctx σ as rs (init σ) f := by
  refine (accesses_runs hA (hos.holds A) has hread).imp ?_
  rintro rs s ⟨-, g, -, hplain⟩
  exact fun σ hσ => ⟨g σ, hplain σ hσ⟩

/-- Four symbolic bytes, with an offset below `4` that depends on the first of
them: two writes, and then reads of one byte and of two. -/
theorem accesses_refine_four :
    let A : Valuation → Prop := fun σ => (σ Array.four 0).toNat < 4
    let e := Expr.zext (.read Array.four .null (.const 0 32)) 64
    let as : List Access := [.write (.const 1 64) (.const 5 8),
      .write e (.const 7 8), .read e 8, .read (.const 1 64) 16]
    (∀ a ∈ as, a.Allowed A 4) ∧
    ∃ os, ofArray ⟨0, 4096, 4, by decide, by decide⟩ Array.four = .ok os ∧
      Runs (accesses true ⟨64, true⟩ as) (os, 0) fun rs _ => ∀ σ, A σ → ∃ f,
        PlainBytes ⟨64, true⟩ σ as rs (fun i =>
          (Array.four.initialValue σ i).getD 0) f := by
  intro A e as
  have hconst : ∀ (σ : Valuation) (n : Nat), n < 4 →
      OffsetAt (.const n 64) 64 σ n := by
    intro σ n hn
    refine ⟨BitVec.ofNat 64 n, denotes_const.mpr ⟨by decide, rfl⟩, ?_⟩
    rw [BitVec.toNat_ofNat]
    omega
  have he : ∀ σ, A σ → OffsetAt e 64 σ (σ Array.four 0).toNat := by
    intro σ _
    refine ⟨_, denotes_zext.mpr
      ⟨8, _, by decide, denotes_read_four σ (by decide), rfl⟩, ?_⟩
    exact BitVec.toNat_setWidth_of_le (by decide)
  have hin : ∀ σ, A σ → (σ Array.four 0).toNat + getMinBytesForWidth 8 ≤ 4 := by
    intro σ hσ
    rw [show getMinBytesForWidth 8 = 1 by decide]
    exact hσ
  have hred : e.Reduced := by
    simp [e, Expr.Reduced, UpdateNode.Reduced, Expr.const]
  have has : ∀ a ∈ as, a.Allowed A 4 := by
    intro a ha
    simp only [as, List.mem_cons, List.not_mem_nil, or_false] at ha
    rcases ha with rfl | rfl | rfl | rfl
    · refine ⟨by decide, trivial, fun σ _ => ⟨1, hconst σ 1 (by decide),
        by decide⟩, ?_⟩
      rintro σ - _ _ ⟨⟩
      exact ⟨_, denotes_const.mpr ⟨by decide, rfl⟩⟩
    · refine ⟨by decide, hred, fun σ hσ => ⟨_, he σ hσ, hin σ hσ⟩, ?_⟩
      rintro σ - _ _ ⟨⟩
      exact ⟨_, denotes_const.mpr ⟨by decide, rfl⟩⟩
    · exact ⟨by decide, hred, fun σ hσ => ⟨_, he σ hσ, hin σ hσ⟩, by simp⟩
    · exact ⟨by decide, trivial, fun σ _ => ⟨1, hconst σ 1 (by decide),
        by decide⟩, by simp⟩
  refine ⟨has, _, rfl, ?_⟩
  have hA : ∃ σ, A σ := ⟨fun _ _ => 0, by decide⟩
  have hnew : Fresh _ fun σ i => (Array.four.initialValue σ i).getD 0 :=
    @Fresh.ofArray ⟨0, 4096, 4, by decide, by decide⟩ .four _ rfl rfl
  exact accesses_refine true ⟨64, true⟩ A hA _ _ hnew 0 as has
    (readable_of_symbolic hA (hnew.holds A) has rfl rfl)

/-! ## Updates that cannot be counted -/

section

/-- One byte without a root and without caches. -/
def uncached (head : UpdateNode) : ObjectState where
  copyOnWriteOwner := 0
  concreteStore _ := 0
  concreteMask := some (Function.update (fun _ => true) 0 false)
  knownSymbolics := none
  unflushedMask := some (Function.update (fun _ => true) 0 false)
  root := none
  head := head
  size := 1
  readOnly := false
  size_lt := Array.seven.size_lt

theorem access_uncached (head : UpdateNode) (id : Nat) :
    access true ⟨64, true⟩ (.write .firstByte (.const 7 8)) (uncached head, id) =
      .ok (none, uncached (.node head .firstByte (.const 7 8)), id) := by with_unfolding_all rfl

theorem access_fresh :
    access true ⟨64, true⟩ (.write .firstByte (.const 7 8))
      (ofObject true ⟨0, 4096, 1, by decide, by decide⟩ 0, 0) =
      .ok (none, uncached (.node (.node .null (.const 0 32) (.const 0 8)) .firstByte
        (.const 7 8)), 0) := by with_unfolding_all rfl

variable {head : UpdateNode} (id : Nat)

/-- Updates that are counted as none are not looked at. -/
theorem getUpdates_uncached (h : head.getSize = 0) :
    ∃ array s, getUpdates (uncached head, id) = .ok ((array, .null), s) ∧
      array.isSymbolicArray = false ∧ array.constantValues = [0] := by
  have hcollect : (uncached head).collectWrites = [] := by
    rw [collectWrites, show (uncached head).head.getSize = 0 from h]
    cases head <;> rfl
  have hvalues : ((uncached head).constantArray (id + 1)).constantValues = [0] := by
    show (pullConcrete [0] (uncached head).collectWrites).1 = [0]
    rw [hcollect]
    rfl
  have hrest : (pullConcrete [0] (uncached head).collectWrites).2 = [] := by
    rw [hcollect]
    rfl
  have hsym : ((uncached head).constantArray (id + 1)).isSymbolicArray = false := by
    rw [Array.isSymbolicArray, hvalues]
    rfl
  obtain ⟨r, s, hrun, rfl⟩ : Runs getUpdates (uncached head, id) fun r _ =>
      r = ((uncached head).constantArray (id + 1), .null) :=
    .get_bind (.except_bind (congrArg _ hrest) (.set_bind (.pure rfl)))
  exact ⟨_, s, hrun, hsym, hvalues⟩

/-- A byte that was written many times is read as it was at first. -/
theorem read_uncached (h : head.getSize = 0) :
    Runs (access true ⟨64, true⟩ (.read .firstByte 8)) (uncached head, id) fun r _ =>
      ∃ e, r = some e ∧ ∀ σ : Valuation, σ Array.four 0 = 0 → Denotes σ e 0#8 := by
  obtain ⟨array, s, hrun, hsym, hvalues⟩ := getUpdates_uncached id h
  have hadd : AddExpr.create true .firstByte (.const 0 32) = .firstByte := by decide +kernel
  have hbyte : read8Symbolic true (AddExpr.create true .firstByte (.const 0 32))
      (uncached head, id) = .ok (ReadExpr.create true array .null .firstByte, s) := by
    rw [hadd]
    show (do
      let ((root, head), s) ← getUpdates (uncached head, id)
      .ok (ReadExpr.create true root head (ZExtExpr.create .firstByte 32), s) : Except Abort _) = _
    rw [hrun]
    rfl
  have hbytes : Runs (readBytes ((fun idx => read8Symbolic true (AddExpr.create true .firstByte
      (.const idx 32))) ∘ byteIndex ⟨64, true⟩ 1) 1) (uncached head, id) fun r _ =>
        r = some (ReadExpr.create true array .null .firstByte) := by
    refine .bind_eq ⟨none, _, rfl, rfl, rfl⟩
      (.bind (P := fun r _ => r = _) ⟨_, s, hbyte, rfl⟩ ?_)
    rintro _ _ rfl
    exact .pure rfl
  have hread : read true ⟨64, true⟩ .firstByte 8 = readSlow ⟨64, true⟩ "Invalid read size!"
      (fun idx => read8Symbolic true (AddExpr.create true .firstByte (.const idx 32))) 8 := by
    with_unfolding_all rfl
  refine .bind (P := fun r _ => r = ReadExpr.create true array .null .firstByte) ?_ ?_
  · rw [hread]
    refine hbytes.bind ?_
    rintro _ _ rfl
    exact .pure rfl
  · rintro _ _ rfl
    refine .pure ⟨_, rfl, fun σ hσ => ReadExpr.create_simplifies.value (denotes_read.mpr
      ⟨counts_null, [], 0, denotes_null.mpr rfl, denotes_firstByte σ hσ, ?_⟩)⟩
    rw [readUpdates, Array.initialValue, Array.isConstantArray, hsym, hvalues]
    rfl

theorem accesses_sevens {e : Expr} {s : ObjectState × Nat} (k : Nat)
    (h : access true ⟨64, true⟩ (.read .firstByte 8)
      (uncached (UpdateNode.repeated .firstByte (.const 7 8) k head), id) = .ok (some e, s)) :
    accesses true ⟨64, true⟩ (List.replicate k (.write .firstByte (.const 7 8)) ++
      [.read .firstByte 8]) (uncached head, id) = .ok (List.replicate k none ++ [some e], s) := by
  induction k generalizing head with
  | zero =>
    rw [UpdateNode.repeated] at h
    show (access true ⟨64, true⟩ (.read .firstByte 8) (uncached head, id) >>= _) = _
    rw [h]
    rfl
  | succ k ih =>
    rw [List.replicate_succ, List.cons_append, List.replicate_succ, List.cons_append]
    show (access true ⟨64, true⟩ (.write .firstByte (.const 7 8)) (uncached head, id) >>= _) = _
    rw [access_uncached]
    show (accesses true ⟨64, true⟩ _ (uncached (.node head .firstByte (.const 7 8)), id) >>= _) = _
    rw [ih h]
    rfl

/-- The plain byte is `7` after the first write. -/
theorem plainBytes_sevens {σ : Valuation} (hσ : σ Array.four 0 = 0) {k : Nat}
    {rs : List (Option Expr)} {f f' : Nat → BitVec 8}
    (h : PlainBytes ⟨64, true⟩ σ (List.replicate k (.write .firstByte (.const 7 8)) ++
      [.read .firstByte 8]) rs f f') (hf : 0 < k ∨ f 0 = 7) :
    ∃ e, rs = List.replicate k none ++ [some e] ∧ Denotes σ e 7#8 := by
  have hzero {b : Nat} (h : OffsetAt .firstByte 32 σ b) : b = 0 := by
    obtain ⟨x, hx, rfl⟩ := h
    rw [hx.unique (denotes_firstByte σ hσ)]
    rfl
  induction k generalizing rs f with
  | zero =>
    cases h with
    | read hoffset hresult hloads hrest =>
      cases hrest
      obtain rfl := hzero hoffset
      have hload := (hloads 0 (by decide)).trans (hf.resolve_left (by decide))
      refine ⟨_, rfl, ?_⟩
      rw [show 7#8 = _ from hload.symm]
      simpa using hresult
  | succ k ih =>
    cases h with
    | write hoffset hvalue hstores hrest =>
      obtain rfl := hzero hoffset
      obtain rfl := denotes_constant_eq hvalue
      obtain ⟨e, rfl, he⟩ := ih hrest (.inr (hstores.1 0 (by decide)))
      exact ⟨e, rfl, he⟩

/-- One byte that starts as `0` and is written `2 ^ 32 - 1` times with `7`, at an
offset that is symbolic. The first write flushes the byte, so there are `2 ^ 32`
updates then, which are counted as none: the byte is read as `0`. -/
theorem accesses_lost :
    let A : Valuation → Prop := fun σ => σ Array.four 0 = 0
    let as : List Access := List.replicate (2 ^ 32 - 1) (.write .firstByte (.const 7 8)) ++
      [.read .firstByte 8]
    (∀ a ∈ as, a.Allowed A 1) ∧
    Runs (accesses true ⟨64, true⟩ as)
      (ofObject true ⟨0, 4096, 1, by decide, by decide⟩ 0, 0) fun rs _ =>
        ∀ σ, A σ → ¬∃ f, PlainBytes ⟨64, true⟩ σ as rs (fun _ => 0) f := by
  intro A as
  have hzero {σ : Valuation} (hσ : A σ) : OffsetAt .firstByte 32 σ 0 :=
    ⟨0, denotes_firstByte σ hσ, rfl⟩
  have hred : Expr.firstByte.Reduced := by
    simp [Expr.firstByte, Expr.Reduced, UpdateNode.Reduced, Expr.const]
  refine ⟨fun a ha => ?_, ?_⟩
  · rcases List.mem_append.mp ha with ha | ha
    · obtain rfl := List.eq_of_mem_replicate ha
      refine ⟨by decide, hred, fun σ hσ => ⟨0, hzero hσ, by decide⟩, ?_⟩
      rintro σ - _ _ ⟨⟩
      exact ⟨_, denotes_const.mpr ⟨by decide, rfl⟩⟩
    · obtain rfl := List.mem_singleton.mp ha
      exact ⟨by decide, hred, fun σ hσ => ⟨0, hzero hσ, by decide⟩, by simp⟩
  · obtain ⟨k, hk⟩ : ∃ k, 2 ^ 32 - 1 = k + 1 := ⟨2 ^ 32 - 2, by decide⟩
    have has : as = .write .firstByte (.const 7 8) ::
        (List.replicate k (.write .firstByte (.const 7 8)) ++ [.read .firstByte 8]) := by
      rw [show as = List.replicate (2 ^ 32 - 1) _ ++ _ from rfl, hk, List.replicate_succ,
        List.cons_append]
    have hsize : (UpdateNode.repeated .firstByte (.const 7 8) k (.node (.node .null
        (.const 0 32) (.const 0 8)) .firstByte (.const 7 8))).getSize = 0 := by
      rw [UpdateNode.getSize_eq, UpdateNode.length_repeated]
      simp only [UpdateNode.length]
      rw [show 0 + 1 + 1 + k = 2 ^ 32 by omega]
      rfl
    obtain ⟨_, s, hread, e, rfl, he⟩ := read_uncached 0 hsize
    have hrest := accesses_sevens 0 k hread
    refine ⟨none :: (List.replicate k none ++ [some e]), s, ?_, ?_⟩
    · rw [has]
      show (access true ⟨64, true⟩ _ _ >>= _) = _
      rw [access_fresh]
      show (accesses true ⟨64, true⟩ _ _ >>= _) = _
      rw [hrest]
      rfl
    · rintro σ hσ ⟨f, hf⟩
      rw [has, ← List.cons_append, ← List.replicate_succ] at hf
      obtain ⟨e', heq, he'⟩ := plainBytes_sevens hσ hf (.inl (Nat.succ_pos k))
      rw [List.replicate_succ, List.cons_append, List.cons.injEq] at heq
      obtain rfl : e = e' := by simpa using heq.2
      exact absurd ((he σ hσ).unique he') (by decide)

end

end ObjectState

end VitalSE
