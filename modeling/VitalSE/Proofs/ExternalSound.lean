import VitalSE.Proofs.IsolationSound
import VitalSE.Proofs.ObjectSound
import VitalSE.Proofs.ResolveSound

/-!
# What external code writes

Before an external call the concrete stores go to the memory of the process, and
after it they come back from there. Only the stores come back: a byte that a
symbolic access has flushed has a second copy in the updates, which keeps the
old value, and the byte is still marked flushed, so that nothing replaces it.

So the changes are seen exactly when the changed bytes were unflushed. One
direction is the invariant of the object states again. For the other, a read at
a symbolic offset is blind to the stores of the flushed bytes: it gives the same
expression as if they had not changed.
-/

namespace VitalSE

namespace ObjectState

/-- Other bytes in the concrete store. -/
def withStore (os : ObjectState) (store : Nat → BitVec 8) : ObjectState :=
  { os with concreteStore := store }

variable {os : ObjectState} {store : Nat → BitVec 8} {o : Nat} {opt : Bool}
  {ctx : Context} {A : Valuation → Prop} {e : Expr} {f : Valuation → Nat → BitVec 8}
  {α β ε : Type} {R : α → β → Prop} {i w : Nat} {m : Except ε α} {m' : Except ε β}

/-- The bytes after external code left `store` in memory: a symbolic byte is not
in memory, and keeps its value. -/
def afterExternal (os : ObjectState) (store : Nat → BitVec 8)
    (f : Valuation → Nat → BitVec 8) : Valuation → Nat → BitVec 8 :=
  fun σ i => if os.isByteConcrete i then store i else f σ i

/-- Every changed byte is marked unflushed. -/
def ChangesUnflushed (os : ObjectState) (store : Nat → BitVec 8) : Prop :=
  ∀ i < os.size, os.isByteConcrete i → store i ≠ os.concreteStore i →
    os.isByteUnflushed i

theorem withStore_holds (h : os.Holds A f) (hch : os.ChangesUnflushed store) :
    (os.withStore store).Holds A (os.afterExternal store f) where
  wf := ⟨h.wf.head, h.wf.known, h.wf.cached, h.wf.exclusive⟩
  denotes σ hσ := by
    have hd := h.denotes σ hσ
    obtain ⟨us, hus, hlook⟩ := hd.updates
    refine ⟨⟨us, hus, fun i hi hu => ?_⟩, fun i hi hc => ?_, fun i hi e he => ?_⟩
    · refine (hlook i hi hu).trans (congrArg some ?_)
      unfold afterExternal
      split
      · next hc =>
        -- A flushed byte has not changed.
        have hsame : store i = os.concreteStore i := by
          by_contra hne
          have := hch i hi hc hne
          simp only [view, withStore, isByteUnflushed] at hu this
          simp [hu] at this
        rw [hsame]
        exact (hd.concrete i hi hc).symm
      · rfl
    · exact (if_pos hc).symm
    · have hc : ¬os.isByteConcrete i = true := by
        intro hc
        have hnone := h.wf.exclusive i hi hc
        have hsome : os.view.known i = some e := he
        rw [hnone] at hsome
        cases hsome
      rw [afterExternal, if_neg hc]
      exact hd.known i hi e he

/-! ## Symbolic reads are blind to flushed stores -/

/-- Both fail alike, or they give results in the relation. -/
def Both {ε α β : Type} (R : α → β → Prop) : Except ε α → Except ε β → Prop
  | .ok a, .ok b => R a b
  | .error e, .error e' => e = e'
  | _, _ => False

theorem Both.bind {α' β' : Type} {Q : α' → β' → Prop} {f : α → Except ε α'}
    {f' : β → Except ε β'} (h : Both R m m') (hf : ∀ a b, R a b → Both Q (f a) (f' b)) :
    Both Q (m >>= f) (m' >>= f') := by
  cases m <;> cases m'
  · exact h
  · exact h.elim
  · exact h.elim
  · exact hf _ _ h

theorem Both.of_ok {a : α} (h : Both R m m') (ha : m = .ok a) : ∃ b, m' = .ok b ∧ R a b := by
  subst ha
  cases m' with
  | ok b => exact ⟨b, rfl, h⟩
  | error e => exact h.elim

theorem Both.ite {c : Prop} [Decidable c] {n : Except ε α} {n' : Except ε β}
    (h : c → Both R m m') (h' : ¬c → Both R n n') :
    Both R (if c then m else n) (if c then m' else n') := by
  by_cases hc : c
  · rw [if_pos hc, if_pos hc]
    exact h hc
  · rw [if_neg hc, if_neg hc]
    exact h' hc

/-- The same object state but for the stores of the flushed bytes. -/
def Agrees (os os' : ObjectState) : Prop :=
  ∃ store, os' = os.withStore store ∧
    ∀ i, os.isByteUnflushed i → store i = os.concreteStore i

/-- The step does not look at the stores of the flushed bytes. -/
def BlindStep (g : ObjectState → Except Abort ObjectState) : Prop :=
  ∀ os os', Agrees os os' → Both Agrees (g os) (g os')

/-- Nor does the program. -/
def Blind {α : Type} (m : ObjectM α) : Prop :=
  ∀ os os' id, Agrees os os' → Both (fun r r' => r.1 = r'.1 ∧ Agrees r.2.1 r'.2.1 ∧
    r.2.2 = r'.2.2) (m (os, id)) (m (os', id))

namespace Blind

variable {α β : Type} {m : ObjectM α} {f : α → ObjectM β}

theorem pure {a : α} : Blind (pure a : ObjectM α) := fun _ _ _ h => ⟨rfl, h, rfl⟩

theorem throw {e : Abort} : Blind (throw e : ObjectM α) := fun _ _ _ _ => rfl

theorem bind (h : Blind m) (hf : ∀ a, Blind (f a)) : Blind (m >>= f) := by
  intro os os' id hos
  refine Both.bind (h os os' id hos) ?_
  rintro ⟨a, os1, id1⟩ ⟨_, os1', _⟩ ⟨rfl, h1, rfl⟩
  exact hf a os1 os1' id1 h1

end Blind

theorem foldlM_blind {step : ObjectState → α → Except Abort ObjectState}
    (h : ∀ i, BlindStep (step · i)) (l : List α) : BlindStep (l.foldlM step ·) := by
  induction l with
  | nil => exact fun _ _ hos => hos
  | cons i l ih =>
    intro os os' hos
    simp only [List.foldlM_cons]
    exact (h i os os' hos).bind ih

theorem extend_blind {index value : Expr} : BlindStep (extend · index value) := by
  rintro os _ ⟨store, rfl, hos⟩
  exact .ite (fun _ => rfl) fun _ => .ite (fun _ => rfl) fun _ => ⟨store, rfl, hos⟩

theorem flushByte_blind {os' : ObjectState} (hos : Agrees os os')
    (hu : os.isByteUnflushed o) : Both Agrees (os.flushByte o) (os'.flushByte o) := by
  obtain ⟨store, rfl, hstore⟩ := hos
  have hbyte : (os.withStore store).concreteStore o = os.concreteStore o := hstore o hu
  have hextend (e : Expr) : Both Agrees (os.extend (Expr.const o 32) e)
      ((os.withStore store).extend (Expr.const o 32) e) :=
    extend_blind _ _ ⟨store, rfl, hstore⟩
  unfold flushByte
  rw [hbyte]
  refine .ite (fun _ => hextend _) fun _ => ?_
  have hknown : (os.withStore store).knownSymbolic o = os.knownSymbolic o := rfl
  rw [hknown]
  cases os.knownSymbolic o with
  | some e => exact hextend e
  | none => rfl

theorem flushByteForRead_blind : BlindStep (flushByteForRead · o) := by
  rintro os _ ⟨store, rfl, hos⟩
  refine .ite (fun hu => (flushByte_blind ⟨store, rfl, hos⟩ hu).bind ?_)
    fun _ => ⟨store, rfl, hos⟩
  rintro os1 _ ⟨store1, rfl, hos1⟩
  -- The byte that is flushed leaves those on which the stores have to agree.
  refine ⟨store1, ?_, fun i hi => ?_⟩
  · cases hmask : os1.unflushedMask <;> simp [markByteFlushed, withStore, hmask]
  · unfold markByteFlushed at hi ⊢
    split at hi
    · simp [isByteUnflushed] at hi
    · next mask hmask =>
      by_cases hio : i = o
      · simp [isByteUnflushed, hio] at hi
      · refine hos1 i ?_
        simpa [isByteUnflushed, hmask, Function.update_of_ne hio] using hi

theorem flushRangeForRead_blind (base size : Nat) : BlindStep (flushRangeForRead · base size) := by
  rintro os _ ⟨store, rfl, hos⟩
  refine foldlM_blind (fun i => flushByteForRead_blind) _ _ _ ⟨store, ?_, fun i hi => ?_⟩
  · cases hmask : os.unflushedMask <;> simp [startFlush, withStore, hmask]
  · refine (hos i ?_).trans ?_
    · unfold startFlush at hi
      split at hi
      · next hnone => simp [isByteUnflushed, hnone]
      · exact hi
    · unfold startFlush
      split <;> rfl

theorem getUpdates_blind : Blind getUpdates := by
  rintro ⟨_, _, _, _, _, root, _, _, _, _⟩ _ id ⟨store, rfl, hos⟩
  cases root with
  | some root => exact ⟨rfl, ⟨store, rfl, hos⟩, rfl⟩
  | none =>
    refine Both.bind (R := fun r r' => Agrees r.1 r'.1) ?_ ?_
    · exact Both.bind (foldlM_blind (fun _ => extend_blind) _ _ _ ⟨store, rfl, hos⟩)
        fun os1 os1' h => h
    · rintro ⟨os1, _⟩ ⟨_, _⟩ ⟨store1, rfl, h1⟩
      exact ⟨rfl, ⟨store1, rfl, h1⟩, rfl⟩

theorem read8Symbolic_blind : Blind (read8Symbolic opt e) := by
  unfold read8Symbolic
  split
  · exact .throw
  · intro os os' id hos
    obtain ⟨store, rfl, hstore⟩ := hos
    refine Both.bind (R := fun r r' => Agrees r.1 r'.1) ?_ ?_
    · exact Both.bind (flushRangeForRead_blind 0 os.size os _ ⟨store, rfl, hstore⟩)
        fun _ _ h => h
    · rintro ⟨os1, _⟩ ⟨os1', _⟩ h
      refine Both.bind (getUpdates_blind os1 os1' id h) ?_
      rintro ⟨_, _⟩ ⟨_, _⟩ ⟨rfl, h'⟩
      exact ⟨rfl, h'⟩

theorem readBytes_blind {readByte : Nat → ObjectM Expr}
    (h : ∀ i, Blind (readByte i)) (n : Nat) : Blind (readBytes readByte n) := by
  induction n with
  | zero => exact .pure
  | succ n ih => exact .bind ih fun _ => .bind (h n) fun _ => .pure

/-- A read at a symbolic offset does not see the stores of flushed bytes. -/
theorem read_blind (h : (ZExtExpr.create e 32).isConstant = false) : Blind (read opt ctx e w) := by
  unfold read
  split
  · next hc =>
    rw [hc] at h
    cases h
  · split
    · exact .bind read8Symbolic_blind fun _ => .pure
    · unfold readSlow
      simp only
      split
      · exact .throw
      · refine .bind (readBytes_blind (fun i => read8Symbolic_blind) _) fun r => ?_
        cases r with
        | some e => exact .pure
        | none => exact .throw

/-! ## When changes are seen -/

/-- All later accesses to the object find the bytes `f`: for valuations among
those of `A`, every sequence of accesses runs as on the plain bytes, as long as the
updates can be counted. -/
def Shows (opt : Bool) (ctx : Context) (A : Valuation → Prop)
    (f : Valuation → Nat → BitVec 8) (os : ObjectState) : Prop :=
  ∀ (A' : Valuation → Prop) (as : List Access) (id : Nat), (∃ σ, A' σ) →
    (∀ σ, A' σ → A σ) → (∀ a ∈ as, a.Allowed A' os.size) → Readable opt ctx as (os, id) →
    Runs (accesses opt ctx as) (os, id) fun rs _ =>
      ∀ σ, A' σ → ∃ g, PlainBytes ctx σ as rs (f σ) g

theorem Holds.shows (h : os.Holds A f) : os.Shows opt ctx A f := by
  intro A' as id hA' hsub has hread
  have h' : os.Holds A' f := ⟨h.wf, fun σ hσ => h.denotes σ (hsub σ hσ)⟩
  refine (accesses_runs hA' h' has hread).imp ?_
  rintro rs s ⟨-, g, -, hplain⟩
  exact fun σ hσ => ⟨g σ, hplain σ hσ⟩

/-- A symbolic offset that is `i` under the valuation at hand. -/
def offsetTo (σ : Valuation) (i : Nat) : Expr :=
  .binary .add (.constant ⟨32, BitVec.ofNat 32 i - (σ Array.four 0).setWidth 32⟩)
    (.zext (.read Array.four .null (.const 0 32)) 32)

theorem offsetTo_at (σ : Valuation) (hi : i < 2 ^ 32) : OffsetAt (offsetTo σ i) 32 σ i := by
  refine ⟨BitVec.ofNat 32 i, denotes_binary.mpr ⟨_, _,
    denotes_constant.mpr ⟨by decide, rfl⟩, denotes_zext.mpr ⟨8, _, by decide,
      denotes_read_four σ (by decide), rfl⟩, ?_⟩, ?_⟩
  · simp [BinaryKind.apply]
  · rw [BitVec.toNat_ofNat, Nat.mod_eq_of_lt hi]

theorem offsetTo_allowed (σ : Valuation) {size : Nat} (hi : i < size)
    (hsize : size < 2 ^ 32) : (Access.read (offsetTo σ i) 8).Allowed (· = σ) size where
  storable := by
    show Storable 8
    decide
  reduced := by
    simp [Access.offset, offsetTo, Expr.Reduced, UpdateNode.Reduced, Expr.const, Expr.isConstant]
  inBounds := by
    rintro _ rfl
    refine ⟨i, offsetTo_at _ (hi.trans hsize), ?_⟩
    rw [Access.width, show getMinBytesForWidth 8 = 1 by decide]
    exact hi
  value := by simp

theorem loads_byte {f : Nat → BitVec 8} {b : Nat} {y : BitVec 8} : Loads ctx f b y ↔ y = f b := by
  have hindex : byteIndex ctx 1 0 = 0 := by
    unfold byteIndex
    split <;> rfl
  rw [Loads, if_neg (by decide)]
  constructor
  · intro h
    have := h 0 (by decide)
    simpa [hindex] using this
  · rintro rfl i hi
    obtain rfl : i = 0 := by omega
    simp [hindex]

theorem OffsetAt.unique {b b' : Nat} {σ : Valuation} (h : OffsetAt e w σ b)
    (h' : OffsetAt e w σ b') : b = b' := by
  obtain ⟨x, hx, rfl⟩ := h
  obtain ⟨y, hy, rfl⟩ := h'
  rw [hx.unique hy]

/-- A changed byte that is flushed is not seen by a symbolic read. -/
theorem not_shows_of_flushed (h : os.Holds A f) (hcount : os.view.Counted os.view.pending)
    {σ : Valuation} (hσ : A σ) (hi : i < os.size) (hc : os.isByteConcrete i)
    (hne : store i ≠ os.concreteStore i) (hu : os.isByteUnflushed i = false) :
    ¬(os.withStore store).Shows opt ctx A (os.afterExternal store f) := by
  intro hshows
  -- The same object with the old stores of its flushed bytes: it has bytes, and
  -- a symbolic read cannot tell the two apart.
  let old : Nat → BitVec 8 := fun j =>
    if os.isByteUnflushed j then store j else os.concreteStore j
  have hold : (os.withStore old).Holds A (os.afterExternal old f) := by
    refine withStore_holds h fun j _ _ hj => ?_
    by_contra hj'
    exact hj (if_neg hj')
  have hagree : Agrees (os.withStore old) (os.withStore store) :=
    ⟨store, rfl, fun j hj => (if_pos hj).symm⟩
  have hz : (ZExtExpr.create (offsetTo σ i) 32).isConstant = false := by
    rfl
  have hlt : i < 2 ^ 32 := hi.trans os.size_lt
  have hat := offsetTo_at σ hlt
  have hallowed := offsetTo_allowed σ hi os.size_lt
  obtain ⟨b, hb, hle⟩ := hallowed.inBounds σ rfl
  obtain rfl : b = i := OffsetAt.unique hb hat
  obtain ⟨r, ⟨os', id'⟩, hread, -, -, hloads⟩ := read_runs opt ctx hold.wf (.of_counted hcount)
    hallowed.storable hb.choose_spec.1.typed hallowed.reduced ⟨σ, b, hb, hle⟩ 0
  obtain ⟨y, hy, hload⟩ := hloads (hold.denotes σ hσ) hb hle
  obtain ⟨⟨_, s1⟩, hblind, rfl, -⟩ := (read_blind hz _ _ 0 hagree).of_ok hread
  obtain ⟨rs, s', hacc, hplain⟩ := hshows (· = σ) [.read (offsetTo σ b) 8] 0
    ⟨σ, rfl⟩ (by rintro _ rfl; exact hσ)
    (fun a ha => List.mem_singleton.mp ha ▸ hallowed) ⟨hcount, fun _ _ _ => trivial⟩
  change (read opt ctx _ _ _ >>= fun p => _) >>= _ = _ at hacc
  change read opt ctx _ 8 _ = _ at hblind
  rw [hblind] at hacc
  cases hacc
  obtain ⟨g, hg⟩ := hplain σ rfl
  cases hg with
  | @read _ _ b' _ _ _ _ _ y' hoffset hresult hload' _ =>
    obtain rfl : b' = b := OffsetAt.unique hoffset hat
    obtain rfl : y' = y := hresult.unique hy
    have hnew : y' = store b' := (loads_byte.mp hload').trans (if_pos hc)
    have hold : y' = old b' := (loads_byte.mp hload).trans (if_pos hc)
    exact hne (hnew.symm.trans (hold.trans (if_neg (by simp [hu]))))

/-- The bytes that external code leaves are seen exactly when all that it
changed was unflushed. -/
theorem shows_iff (opt : Bool) (ctx : Context) (store : Nat → BitVec 8)
    (h : os.Holds A f) (hcount : os.view.Counted os.view.pending) (hA : ∃ σ, A σ) :
    (os.withStore store).Shows opt ctx A (os.afterExternal store f) ↔
      os.ChangesUnflushed store := by
  constructor
  · intro hshows i hi hc hne
    by_contra hu
    obtain ⟨σ, hσ⟩ := hA
    exact not_shows_of_flushed h hcount hσ hi hc hne (Bool.eq_false_iff.mpr hu) hshows
  · intro hch
    exact (withStore_holds h hch).shows

end ObjectState

/-! ## The address space -/

namespace AddressSpace

variable {as : AddressSpace} {h : ObjectHeap} {mo mo' : MemoryObject} {os : Nat}
  {isUserSpecified : MemoryObject → Bool} {memory : Nat → BitVec 8}
  {l : List ObjectPair} {op : ObjectPair}

theorem findObject_replace :
    (AddressSpace.mk as.cowKey (replaceObject (mo, os) l)).findObject mo' =
      if mo.address = mo'.address then some os
      else (AddressSpace.mk as.cowKey l).findObject mo' := by
  unfold findObject
  induction l with
  | nil => by_cases h : mo.address = mo'.address <;> simp [replaceObject, h]
  | cons op l ih =>
    rw [replaceObject]
    simp only [List.find?_cons] at ih ⊢
    grind

/-- The store of an object after it was taken from memory. -/
def takenStore (mo : MemoryObject) (obj : ObjectState)
    (memory : Nat → BitVec 8) (srcAddress : Nat) : Nat → BitVec 8 :=
  fun i => if i < mo.size then memory (srcAddress + i) else obj.concreteStore i

theorem takenStore_eq (hd : concreteDiffers mo (h.heap os) memory mo.address = false) :
    takenStore mo (h.heap os) memory mo.address = (h.heap os).concreteStore := by
  funext i
  unfold takenStore
  split
  · next hi =>
    have := List.any_eq_false.mp hd i (List.mem_range.mpr hi)
    simpa using this
  · rfl

/-- `obj'` is `obj` with the store taken from memory; it may have another
owner. -/
def Took (mo : MemoryObject) (memory : Nat → BitVec 8) (srcAddress : Nat)
    (obj obj' : ObjectState) : Prop :=
  ∃ owner readOnly, obj' = ObjectState.withStore
    { obj with copyOnWriteOwner := owner, readOnly := readOnly }
    (takenStore mo obj memory srcAddress)

/-- What copying some objects in does: each of them is taken from memory, and
nothing else changes. -/
structure CopiedIn (isUserSpecified : MemoryObject → Bool)
    (memory : Nat → BitVec 8) (l : List ObjectPair) (as as' : AddressSpace)
    (h h' : ObjectHeap) : Prop where
  took : ∀ op ∈ l, isUserSpecified op.1 = false → ∃ os',
    as'.findObject op.1 = some os' ∧ os' < h'.nextObject ∧
    (os' = op.2 ∨ h.nextObject ≤ os') ∧
    Took op.1 memory op.1.address (h.heap op.2) (h'.heap os')
  others : ∀ mo, (∀ op ∈ l, mo.address ≠ op.1.address) →
    as'.findObject mo = as.findObject mo
  heap : ∀ r < h.nextObject, r ∉ l.map (·.2) → h'.heap r = h.heap r
  next : h.nextObject ≤ h'.nextObject

theorem copyInConcrete_yields (isUserSpecified : MemoryObject → Bool)
    (hfind : as.findObject mo = some os) (hos : os < h.nextObject) :
    Yields (as.copyInConcrete mo os memory mo.address) h fun r h' =>
      r.1 = true → CopiedIn isUserSpecified memory [(mo, os)] as r.2 h h' := by
  refine .get_bind ?_
  split
  · split
    · exact .pure (by simp)
    · refine .bind (Spaces.getWriteable_yields as os h) ?_
      rintro ⟨as', wos⟩ h' (⟨hr, rfl, -⟩ | ⟨hr, rfl⟩)
      · cases hr
        refine .modify_bind (.pure fun _ => ⟨?_, fun _ _ => rfl, ?_, le_rfl⟩)
        · refine List.forall_mem_singleton.mpr fun _ => ⟨os, hfind, hos, .inl rfl,
            (h'.heap os).copyOnWriteOwner, (h'.heap os).readOnly, ?_⟩
          simp only [ObjectHeap.store, Function.update_self]
          rfl
        · intro r _ hr
          have hne : r ≠ os := by simpa using hr
          simp [ObjectHeap.store, hne]
      · cases hr
        refine .modify_bind (.pure fun _ => ⟨?_, fun mo' hmo' => ?_, ?_, Nat.le_succ _⟩)
        · refine List.forall_mem_singleton.mpr fun _ => ⟨h.nextObject,
            findObject_replace.trans (if_pos rfl), Nat.lt_succ_self _, .inr le_rfl,
            as.cowKey, false, ?_⟩
          simp only [ObjectHeap.store, ObjectHeap.alloc, Function.update_self]
          rfl
        · exact findObject_replace.trans (if_neg (hmo' (mo, os) (by simp)).symm)
        · intro r hr _
          have hne : r ≠ h.nextObject := Nat.ne_of_lt hr
          simp [ObjectHeap.store, ObjectHeap.alloc, hne]
  · next hd =>
    refine .pure fun _ => ⟨?_, fun _ _ => rfl, fun _ _ _ => rfl, le_rfl⟩
    refine List.forall_mem_singleton.mpr fun _ => ⟨os, hfind, hos, .inl rfl,
      (h.heap os).copyOnWriteOwner, (h.heap os).readOnly, ?_⟩
    rw [takenStore_eq (Bool.eq_false_iff.mpr hd)]
    rfl

theorem CopiedIn.cons {as1 as2 : AddressSpace} {h1 h2 : ObjectHeap}
    (hop : CopiedIn isUserSpecified memory [op] as as1 h h1)
    (hl : CopiedIn isUserSpecified memory l as1 as2 h1 h2)
    (haddress : ∀ op' ∈ l, op.1.address ≠ op'.1.address)
    (hlt : ∀ op' ∈ l, op'.2 < h.nextObject) (hrefs : op.2 ∉ l.map (·.2)) :
    CopiedIn isUserSpecified memory (op :: l) as as2 h h2 where
  took op' hop' huser := by
    rcases List.mem_cons.mp hop' with rfl | hop'
    · obtain ⟨os', hfind, hos', hnew, htook⟩ := hop.took op' (by simp) huser
      refine ⟨os', (hl.others _ haddress).trans hfind, hos'.trans_le hl.next,
        hnew, ?_⟩
      have hnot : os' ∉ l.map (·.2) := by
        rcases hnew with rfl | hge
        · exact hrefs
        · intro hmem
          obtain ⟨op'', hop'', rfl⟩ := List.mem_map.mp hmem
          exact absurd (hlt op'' hop'') (Nat.not_lt.mpr hge)
      rw [hl.heap os' hos' hnot]
      exact htook
    · obtain ⟨os', hfind, hos', hnew, htook⟩ := hl.took op' hop' huser
      refine ⟨os', hfind, hos', hnew.imp_right hop.next.trans, ?_⟩
      have hne : op'.2 ≠ op.2 := by
        intro heq
        exact hrefs (heq ▸ List.mem_map_of_mem hop')
      rwa [hop.heap op'.2 (hlt op' hop') (by simpa using hne)] at htook
  others mo hmo := by
    rw [hl.others mo fun op' hop' => hmo op' (by simp [hop'])]
    exact hop.others mo fun op' hop' => hmo op' (by simp_all)
  heap r hr hnot := by
    simp only [List.map_cons, List.mem_cons, not_or] at hnot
    rw [hl.heap r (hr.trans_le hop.next) hnot.2]
    exact hop.heap r hr (by simpa using hnot.1)
  next := hop.next.trans hl.next

theorem copyInLoop_yields : ∀ {as : AddressSpace} {h : ObjectHeap},
    (∀ op ∈ l, as.findObject op.1 = some op.2 ∧ op.2 < h.nextObject) →
    (l.map (·.2)).Nodup → (l.Pairwise fun p q => p.1.address ≠ q.1.address) →
    Yields (copyInLoop isUserSpecified memory l as) h fun r h' =>
      r.1 = true → CopiedIn isUserSpecified memory l as r.2 h h' := by
  induction l with
  | nil =>
    intro as h _ _ _
    exact .pure fun _ => ⟨by simp, fun _ _ => rfl, fun _ _ _ => rfl, le_rfl⟩
  | cons op l ih =>
    intro as h hfind hnodup haddress
    obtain ⟨haddr, haddress⟩ := List.pairwise_cons.mp haddress
    obtain ⟨hnot, hnodup⟩ := List.nodup_cons.mp hnodup
    obtain ⟨hop, hlt⟩ := hfind op (by simp)
    have hrest : ∀ op' ∈ l, as.findObject op'.1 = some op'.2 ∧
        op'.2 < h.nextObject := fun op' hop' => hfind op' (by simp [hop'])
    rw [copyInLoop]
    cases huser : isUserSpecified op.1 with
    | true =>
      rw [if_pos rfl]
      refine (ih hrest hnodup haddress).imp fun r h' hl hr => ?_
      refine CopiedIn.cons ⟨?_, fun _ _ => rfl, fun _ _ _ => rfl, le_rfl⟩ (hl hr)
        haddr (fun op' hop' => (hrest op' hop').2) hnot
      intro op' hop' huser'
      rw [List.mem_singleton.mp hop', huser] at huser'
      cases huser'
    | false =>
      rw [if_neg Bool.false_ne_true]
      refine .bind (copyInConcrete_yields isUserSpecified hop hlt) ?_
      rintro ⟨ok, as1⟩ h1 hstep
      cases ok with
      | false => exact .pure fun hr => by cases hr
      | true =>
        have hstep := hstep rfl
        refine (ih (fun op' hop' => ⟨?_, ?_⟩) hnodup haddress).imp
          fun r h' hl hr => hstep.cons (hl hr) haddr
            (fun op' hop' => (hrest op' hop').2) hnot
        · rw [hstep.others op'.1 (List.forall_mem_singleton.mpr (haddr op' hop').symm)]
          exact (hrest op' hop').1
        · exact (hrest op' hop').2.trans_le hstep.next

/-- What holds of every address space, as `Spaces.run_isolated` shows of all but
the sizes: these are given by the constructors of object states. -/
structure Valid (as : AddressSpace) (h : ObjectHeap) : Prop extends as.Tidy where
  allocated : ∀ op ∈ as.objects, op.2 < h.nextObject
  sized : ∀ op ∈ as.objects, (h.heap op.2).size = op.1.size

theorem find?_of_ordered (hord : l.Pairwise fun p q => p.1.address < q.1.address)
    (hop : op ∈ l) : l.find? (·.1.address == op.1.address) = some op := by
  induction l with
  | nil => cases hop
  | cons q l ih =>
    obtain ⟨hq, hl⟩ := List.pairwise_cons.mp hord
    rcases List.mem_cons.mp hop with rfl | hop
    · simp
    · rw [List.find?_cons_of_neg (by simpa using (hq op hop).ne)]
      exact ih hl hop

theorem Valid.findObject (hv : as.Valid h) (hop : op ∈ as.objects) :
    as.findObject op.1 = some op.2 := by
  unfold AddressSpace.findObject
  rw [find?_of_ordered hv.ordered hop]
  rfl

/-- The bytes of an object after the external call: the concrete ones are those
in memory. -/
def expectedBytes (h : ObjectHeap) (memory : Nat → BitVec 8)
    (f : ObjectPair → Valuation → Nat → BitVec 8) (op : ObjectPair) :
    Valuation → Nat → BitVec 8 :=
  (h.heap op.2).afterExternal
    (takenStore op.1 (h.heap op.2) memory op.1.address) (f op)

/-- After `copyInConcretes`, every later access finds the bytes that external
code left, in every object that is not the user's, exactly when the concrete
bytes that it changed were all marked unflushed. The updates have to be few enough
to be counted, when they are copied in and at the later reads. -/
theorem copyInConcretes_shows_iff (constArrayOpt : Bool) (ctx : Context)
    (isUserSpecified : MemoryObject → Bool) (as as' : AddressSpace)
    (h h' : ObjectHeap) (memory : Nat → BitVec 8) (A : Valuation → Prop)
    (f : ObjectPair → Valuation → Nat → BitVec 8) (hA : ∃ σ, A σ)
    (hvalid : as.Valid h)
    (hholds : ∀ op ∈ as.objects, (h.heap op.2).Holds A (f op))
    (hcount : ∀ op ∈ as.objects, (h.heap op.2).view.Counted (h.heap op.2).view.pending)
    (hrun : as.copyInConcretes isUserSpecified memory h =
      .ok ((true, as'), h')) :
    (∀ op ∈ as.objects, isUserSpecified op.1 = false →
      ∃ os, as'.findObject op.1 = some os ∧
        (h'.heap os).Shows constArrayOpt ctx A (expectedBytes h memory f op)) ↔
    ∀ op ∈ as.objects, isUserSpecified op.1 = false → ∀ i < op.1.size,
      (h.heap op.2).isByteConcrete i →
      memory (op.1.address + i) ≠ (h.heap op.2).concreteStore i →
      (h.heap op.2).isByteUnflushed i := by
  have hin : CopiedIn isUserSpecified memory as.objects as as' h h' :=
    copyInLoop_yields (fun op hop => ⟨hvalid.findObject hop,
      hvalid.allocated op hop⟩) hvalid.distinct
      (hvalid.ordered.imp fun hlt => hlt.ne) _ _ hrun rfl
  refine forall_congr' fun op => forall_congr' fun hop => forall_congr' fun hu => ?_
  obtain ⟨os, hfind, -, -, owner, readOnly, htook⟩ := hin.took op hop hu
  have hsize := hvalid.sized op hop
  -- The owner and the flag play no part in what an object holds.
  have hobj : ObjectState.Holds A (f op) { h.heap op.2 with
      copyOnWriteOwner := owner, readOnly := readOnly } := by
    have hobj := hholds op hop
    refine ⟨⟨hobj.wf.head, hobj.wf.known, hobj.wf.cached, hobj.wf.exclusive⟩,
      fun σ hσ => ?_⟩
    have hd := hobj.denotes σ hσ
    exact ⟨hd.updates, hd.concrete, hd.known⟩
  have hiff := ObjectState.shows_iff constArrayOpt ctx
    (takenStore op.1 (h.heap op.2) memory op.1.address) hobj (hcount op hop) hA
  rw [← htook] at hiff
  have hfound : (∃ os', as'.findObject op.1 = some os' ∧
      (h'.heap os').Shows constArrayOpt ctx A (expectedBytes h memory f op)) ↔
      (h'.heap os).Shows constArrayOpt ctx A (expectedBytes h memory f op) := by
    simp [hfind]
  refine hfound.trans (Iff.trans hiff ?_)
  unfold ObjectState.ChangesUnflushed
  refine forall_congr' fun i => ?_
  rw [show ObjectState.size _ = op.1.size from hsize]
  refine forall_congr' fun hi => ?_
  rw [takenStore, if_pos hi]
  rfl

/-- Object `0` of four concrete bytes, in an address space that owns it. -/
def four : AddressSpace := ⟨1, [(⟨0, 4096, 4, page_lt_address, Array.four.size_lt⟩, 0)]⟩

/-- A heap with the one object. -/
def fourHeap (obj : ObjectState) : ObjectHeap :=
  ⟨fun _ => { obj with copyOnWriteOwner := 1 }, 1⟩

/-- External code sets all bytes to `5`, and none of them was flushed. -/
theorem copyInConcretes_shows_iff_four :
    let h := fourHeap (.ofObject true ⟨0, 4096, 4, by decide, by decide⟩ 0)
    ∃ as' h', four.copyInConcretes (fun _ => false) (fun _ => 5) h =
        .ok ((true, as'), h') ∧
      ((∀ op ∈ four.objects, false = false → ∃ os,
          as'.findObject op.1 = some os ∧ (h'.heap os).Shows true ⟨64, true⟩
            (fun _ => True) (expectedBytes h (fun _ => 5) (fun _ _ _ => 0) op)) ↔
        ∀ op ∈ four.objects, false = false → ∀ i < op.1.size,
          (h.heap op.2).isByteConcrete i → 5 ≠ (h.heap op.2).concreteStore i →
          (h.heap op.2).isByteUnflushed i) := by
  intro h
  have hvalid : four.Valid h := by
    refine ⟨⟨?_, ?_⟩, ?_, ?_⟩ <;> simp [four, h, fourHeap, ObjectState.ofObject]
  have hholds : ∀ op ∈ four.objects,
      (h.heap op.2).Holds (fun _ => True) fun _ _ => 0 := by
    intro op _
    exact ObjectState.holds_of_concrete (h.heap op.2) _ rfl rfl rfl rfl
  have hcount : (ObjectState.ofObject true ⟨0, 4096, 4, by decide, by decide⟩ 0).view.Counted
      (ObjectState.ofObject true ⟨0, 4096, 4, by decide, by decide⟩ 0).view.pending :=
    .inr (by decide)
  refine ⟨_, _, rfl, ?_⟩
  exact copyInConcretes_shows_iff true ⟨64, true⟩ (fun _ => false) four _ h _
    (fun _ => 5) (fun _ => True) (fun _ _ _ => 0) ⟨.zero, trivial⟩ hvalid hholds
    (fun _ _ => hcount) rfl

/-- A read at a symbolic offset flushes the object; external code then sets its
first byte to `5`. A read at offset `0` gives the `5`, and a second one at the
symbolic offset gives the `0` of before where the offset is `0`. -/
theorem copyInConcretes_stale :
    let mo : MemoryObject := ⟨0, 4096, 4, by decide, by decide⟩
    let e := Expr.zext (.read Array.four .null (.const 0 32)) 64
    let read := fun offset => ObjectState.read true ⟨64, true⟩ offset 8
    let σ : Valuation := fun _ _ => 0
    (do
      let (_, obj, n) ← read e (.ofObject true mo 0, 0)
      let memory := four.copyOutConcretes (fun _ => false) (fourHeap obj)
        fun _ => 0
      let ((ok, as'), h') ← four.copyInConcretes (fun _ => false)
        (Function.update memory 4096 5) (fourHeap obj)
      let os := as'.findObject mo
      let (r1, _) ← read (.const 0 64) (h'.heap (os.getD 0), n)
      let (r2, _) ← read e (h'.heap (os.getD 0), n)
      return (ok, os, e.eval σ, r1.eval σ, r2.eval σ) : Except Abort _).toOption =
        some (true, some 0, some ⟨64, 0⟩, some ⟨8, 5⟩, some ⟨8, 0⟩) := by
  decide +kernel

end AddressSpace

end VitalSE
