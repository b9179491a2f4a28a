import VitalSE.Proofs.MemorySound

/-!
# Reading and writing object states

A read gives the bytes that the object state denotes, and a write changes just
the bytes it writes, for every valuation under which the offset is one of the
object. `Loads` and `Stores` say so for values of several bytes, in the order
of bytes of the target.
-/

namespace VitalSE

open Function (update update_self update_of_ne)

variable {v : View} {w n i base pw o : Nat} {ctx : Context} {root : Array}
  {head : UpdateNode} {f : Nat → BitVec 8} {index : Expr} {message : String}
  {At : Valuation → Nat → Prop} {store : BitVec 8} {concrete opt : Bool}
  {known : Option Expr} {σ : Valuation} {P : Valuation → (Nat → BitVec 8) → Prop}
  {C : View → Prop} {os os' : ObjectState}

open ObjectState

/-! ## Values in memory -/

/-- The value `y` stands in the bytes `f` from `base` on. Bool takes one byte
and is its lowest bit. -/
def Loads (ctx : Context) (f : Nat → BitVec 8) (base : Nat) {w : Nat}
    (y : BitVec w) : Prop :=
  if w = 1 then y = (f base).setWidth w
  else ∀ i < w / 8, y.extractLsb' (8 * i) 8 = f (base + byteIndex ctx (w / 8) i)

/-- `f'` is `f` with the value `y` from `base` on. -/
def Stores (ctx : Context) (f : Nat → BitVec 8) (base : Nat) {w : Nat}
    (y : BitVec w) (f' : Nat → BitVec 8) : Prop :=
  if w = 1 then f' = update f base (y.setWidth 8)
  else (∀ i < w / 8,
      f' (base + byteIndex ctx (w / 8) i) = y.extractLsb' (8 * i) 8) ∧
    ∀ a, a < base ∨ base + w / 8 ≤ a → f' a = f a

/-- The widths that memory holds: Bool, and those of whole bytes. -/
def Storable (w : Nat) : Prop := w = 1 ∨ 0 < w ∧ 8 ∣ w

instance {w : Nat} : Decidable (Storable w) :=
  inferInstanceAs (Decidable (_ ∨ _))

theorem Storable.bytes (h : Storable w) (h1 : w ≠ 1) :
    0 < w ∧ 8 ∣ w ∧ getMinBytesForWidth w = w / 8 := by
  unfold getMinBytesForWidth
  unfold Storable at h
  omega

theorem Storable.pos (h : Storable w) : 0 < getMinBytesForWidth w := by
  unfold getMinBytesForWidth
  unfold Storable at h
  omega

theorem byteIndex_lt (ctx : Context) (h : i < n) : byteIndex ctx n i < n := by
  unfold byteIndex
  split <;> omega

namespace ObjectState

variable {offset : Expr} {readByte : Nat → ObjectM Expr}

/-! ## Reading a byte -/

theorem counts_of_counted (h : View.Counted { v with root := some root, head := head } 0) :
    root.counts head := by
  simpa [View.Counted, Array.counts] using h

/-- A read from the updates, at a byte that is in them. -/
theorem read_denotes (opt : Bool) {x : BitVec 32} (hcount : root.counts head)
    (hd : View.Denotes σ { v with root := some root, head := head } f)
    (hi : Denotes σ index x) (hx : x.toNat < v.size)
    (hu : v.unflushed x.toNat = false) :
    Denotes σ (ReadExpr.create opt root head index) (f x.toNat) := by
  obtain ⟨us, hus, hlook⟩ := hd.updates
  refine ReadExpr.create_simplifies.value
    (denotes_read.mpr ⟨hcount, us, x, hus, hi, ?_⟩)
  rw [readUpdates_eq_overlay]
  have := hlook x.toNat hx hu
  rwa [BitVec.ofNat_toNat, BitVec.setWidth_eq] at this

theorem read_typed (hcount : root.counts head)
    (hwf : View.WF { v with root := some root, head := head }) (hi : Typed index 32) :
    Typed (ReadExpr.create opt root head index) 8 :=
  (ReadExpr.create_simplifies (σ := fun _ _ => 0)).typed
    (typed_read.mpr ⟨rfl, hwf.head, hi, hcount⟩)

/-- What is read: a byte, kept as it was. -/
theorem read8_runs (hwf : os.view.WF) (hread : os.view.Readable base n) (hbase : base ≤ o)
    (hn : o < base + n) (ho : o < os.size) (id : Nat) :
    Runs (read8 opt o) (os, id) fun r s => (os.view.Keeps s.1.view ∧ s.1.view.Readable base n) ∧
      Typed r 8 ∧ ∀ {σ f}, os.view.Denotes σ f → Denotes σ r (f o) := by
  refine .get_bind ?_
  simp only
  by_cases hc : os.isByteConcrete o
  · rw [if_pos hc]
    refine .pure ⟨⟨.refl hwf, hread⟩, by simp, fun hd => ?_⟩
    rw [← hd.concrete o ho hc]
    exact denotes_constant.mpr ⟨by decide, rfl⟩
  rw [if_neg hc]
  cases hk : os.knownSymbolic o with
  | some e =>
    exact .pure ⟨⟨.refl hwf, hread⟩, hwf.known o ho e hk, fun hd => hd.known o ho e hk⟩
  | none =>
    -- A byte without a cache is in the updates.
    have hu : ¬os.isByteUnflushed o := by
      intro hu
      rcases hwf.cached o ho hu with h | h
      · exact hc h
      · simp [view, hk] at h
    have hcount : os.view.Counted 0 := by
      refine hread.resolve_left fun hcached => ?_
      rcases hcached o hbase hn with h | h
      · exact hc h
      · simp [view, hk] at h
    simp only [if_neg hu]
    refine .bind (getUpdates_runs hwf hcount id) ?_
    rintro ⟨root, head⟩ s ⟨hview, hkeeps, hcounted⟩
    have hcounts := counts_of_counted (hview ▸ hcounted)
    have hto : (BitVec.ofNat 32 o).toNat = o := by
      rw [BitVec.toNat_ofNat, Nat.mod_eq_of_lt (ho.trans os.size_lt)]
    refine .pure ⟨⟨hkeeps, .inr hcounted⟩, read_typed hcounts (hview ▸ hkeeps.wf)
      (typed_const.mpr ⟨by decide, rfl⟩), ?_⟩
    intro σ f hd
    have := read_denotes opt hcounts (hview ▸ hkeeps.denotes hd)
      (denotes_const.mpr ⟨by decide, rfl⟩) (hto.symm ▸ ho)
      (hto.symm ▸ Bool.eq_false_of_not_eq_true hu)
    rwa [hto] at this

/-- A read at a symbolic offset, which may be any of the object's. -/
theorem read8Symbolic_runs (hwf : os.view.WF) (hcount : os.view.Counted os.view.pending)
    (hc : offset.isConstant = false) (ht : Typed offset 32) (id : Nat) :
    Runs (read8Symbolic opt offset) (os, id) fun r s => os.view.Keeps s.1.view ∧ Typed r 8 ∧
      ∀ {σ f} {x : BitVec 32}, os.view.Denotes σ f → Denotes σ offset x →
        x.toNat < os.size → Denotes σ r (f x.toNat) := by
  unfold read8Symbolic
  rw [if_neg (by simp [hc])]
  refine .get_bind ?_
  obtain ⟨os1, hrun, hkeeps1, hflushed⟩ := flushRangeForRead_ok hwf
  refine .except_bind hrun (.set_bind ?_)
  have hcount1 : os1.view.Counted 0 :=
    (hkeeps1.counted hcount).mono rfl (Nat.add_le_add_left (Nat.zero_le _) _)
  refine .bind (getUpdates_runs hkeeps1.wf hcount1 id) ?_
  rintro ⟨root, head⟩ s ⟨hview, hkeeps2, hcounted⟩
  have hcounts := counts_of_counted (hview ▸ hcounted)
  have hz := ZExtExpr.create_spec ht (by decide : 0 < 32)
  refine .pure ⟨hkeeps1.trans hkeeps2, read_typed hcounts (hview ▸ hkeeps2.wf) hz.1, ?_⟩
  intro σ f x hd hx hlt
  have hx' := hz.2 hx
  rw [BitVec.setWidth_eq] at hx'
  refine read_denotes opt hcounts (hview ▸ hkeeps2.denotes (hkeeps1.denotes hd)) hx' ?_
    (hflushed _ hlt)
  rwa [hkeeps1.same.size]

/-! ## Reading a value -/

/-- The loop of both reads, from what it does to one byte. `P σ g` says that
under `σ` the bytes of the value are `g`, and `C` that a byte can be read. -/
theorem readBytes_runs (hwf : os.view.WF) (hC : C os.view) (id : Nat)
    (hbyte : ∀ i < n, ∀ os' id', os.view.Keeps os'.view → C os'.view →
      Runs (readByte i) (os', id') fun r s => (os'.view.Keeps s.1.view ∧ C s.1.view) ∧
        Typed r 8 ∧ ∀ {σ g}, P σ g → Denotes σ r (g i)) :
    ∀ k ≤ n, Runs (readBytes readByte k) (os, id) fun r s =>
      (os.view.Keeps s.1.view ∧ C s.1.view) ∧ (k = 0 → r = none) ∧
      (0 < k → ∃ e, r = some e ∧ Typed e (8 * k) ∧ ∀ {σ g}, P σ g →
        ∃ y : BitVec (8 * k), Denotes σ e y ∧ ∀ i < k, y.extractLsb' (8 * i) 8 = g i) := by
  intro k
  induction k with
  | zero => exact fun _ => .pure ⟨⟨.refl hwf, hC⟩, fun _ => rfl, by simp⟩
  | succ k ih =>
    intro hk
    refine .bind (ih (by omega)) ?_
    rintro res ⟨os1, id1⟩ ⟨⟨hkeeps1, hC1⟩, hnone, hsome⟩
    refine .bind (hbyte k hk os1 id1 hkeeps1 hC1) ?_
    rintro byte s ⟨⟨hkeeps2, hC2⟩, hbt, hbd⟩
    refine .pure ⟨⟨hkeeps1.trans hkeeps2, hC2⟩, by simp, fun _ => ⟨_, rfl, ?_⟩⟩
    rcases Nat.eq_zero_or_pos k with rfl | hpos
    · rw [hnone rfl]
      refine ⟨hbt, fun {σ g} h => ⟨g 0, hbd h, fun i hi => ?_⟩⟩
      obtain rfl : i = 0 := by omega
      simp
    · obtain ⟨e, rfl, het, hed⟩ := hsome hpos
      rw [show 8 * (k + 1) = 8 + 8 * k by omega]
      refine ⟨(ConcatExpr.create_simplifies (σ := fun _ _ => 0)).typed
        (typed_concat.mpr ⟨8, 8 * k, hbt, het, rfl⟩), fun {σ g} h => ?_⟩
      obtain ⟨y, hy, hbytes⟩ := hed h
      refine ⟨g k ++ y, ConcatExpr.create_simplifies.value
        ((denotes_concat hbt het).mpr ⟨g k, y, hbd h, hy, rfl⟩), fun i hi => ?_⟩
      rcases Nat.lt_succ_iff_lt_or_eq.mp hi with hi | rfl
      · exact (BitVec.extractLsb'_append_eq_of_add_le (by omega)).trans
          (hbytes i hi)
      · refine (BitVec.extractLsb'_append_eq_of_le le_rfl).trans ?_
        simp

theorem readSlow_runs (hwf : os.view.WF) (hC : C os.view) (id : Nat) (hw : 8 ∣ w) (hpos : 0 < w)
    (hbyte : ∀ i < w / 8, ∀ os' id', os.view.Keeps os'.view → C os'.view →
      Runs (readByte (byteIndex ctx (w / 8) i)) (os', id') fun r s =>
        (os'.view.Keeps s.1.view ∧ C s.1.view) ∧ Typed r 8 ∧ ∀ {σ g}, P σ g → Denotes σ r (g i)) :
    Runs (readSlow ctx message readByte w) (os, id) fun r s =>
      os.view.Keeps s.1.view ∧ Typed r w ∧ ∀ {σ g}, P σ g → ∃ y : BitVec w, Denotes σ r y ∧
          ∀ i < w / 8, y.extractLsb' (8 * i) 8 = g i := by
  obtain ⟨n, rfl⟩ := hw
  have hn : 8 * n / 8 = n := by omega
  unfold readSlow
  simp only [hn] at hbyte ⊢
  rw [if_neg (by omega)]
  refine .bind (readBytes_runs hwf hC id hbyte n le_rfl) ?_
  rintro res s ⟨⟨hkeeps, -⟩, -, hsome⟩
  obtain ⟨e, rfl, het, hed⟩ := hsome (by omega)
  exact .pure ⟨hkeeps, het, hed⟩

/-- What a read of the bytes `n` from `base` gives under the valuations at which
the object state and the place to read are known. -/
def ReadsBytes (ctx : Context) (os : ObjectState)
    (At : Valuation → Nat → Prop) (w : Nat) (r : Expr)
    (s : ObjectState × Nat) : Prop :=
  os.view.Keeps s.1.view ∧ Typed r w ∧
    ∀ {σ f base}, os.view.Denotes σ f → At σ base →
      base + getMinBytesForWidth w ≤ os.size →
        ∃ y : BitVec w, Denotes σ r y ∧ Loads ctx f base y

/-- Both forms of `read`, from how they read a byte. -/
theorem readWith_runs {readFirst : ObjectM Expr} (hwf : os.view.WF) (hC : C os.view)
    (hw : Storable w) (id : Nat)
    (hfirst : Runs readFirst (os, id) fun r s => os.view.Keeps s.1.view ∧
      Typed r 8 ∧ ∀ {σ f base}, os.view.Denotes σ f → At σ base →
        base < os.size → Denotes σ r (f base))
    (hbyte : ∀ i < w / 8, ∀ os' id', os.view.Keeps os'.view → C os'.view →
      Runs (readByte i) (os', id') fun r s => (os'.view.Keeps s.1.view ∧ C s.1.view) ∧
        Typed r 8 ∧ ∀ {σ f base}, os'.view.Denotes σ f → At σ base →
          base + i < os.size → Denotes σ r (f (base + i))) :
    Runs (if w = 1 then do return ExtractExpr.create (← readFirst) 0 1
      else readSlow ctx message readByte w) (os, id)
      (ReadsBytes ctx os At w) := by
  by_cases h1 : w = 1
  · subst h1
    rw [if_pos rfl]
    refine .bind hfirst ?_
    rintro r s ⟨hkeeps, ht, hd⟩
    have hs (σ : Valuation) : Simplifies σ (.extract r 0 1) _ :=
      ExtractExpr.create_simplifies _ le_rfl
    refine .pure ⟨hkeeps, (hs fun _ _ => 0).typed
      (typed_extract.mpr ⟨rfl, by decide, 8, ht, by decide⟩), ?_⟩
    intro σ f base hf hat hle
    refine ⟨_, (hs σ).value (denotes_extract.mpr ⟨by decide, 8, _, by decide,
      hd hf hat hle, rfl⟩), ?_⟩
    rw [Loads, if_pos rfl]
    exact (BitVec.setWidth_eq_extractLsb' (by decide)).symm
  · rw [if_neg h1]
    obtain ⟨hpos, hdvd, hbytes⟩ := hw.bytes h1
    refine (readSlow_runs hwf hC id hdvd hpos
      (P := fun σ g => ∃ f base, os.view.Denotes σ f ∧ At σ base ∧ base + w / 8 ≤ os.size ∧
        g = fun i => f (base + byteIndex ctx (w / 8) i)) ?_).imp ?_
    · intro i hi os' id' hkeeps hC'
      have hlt := byteIndex_lt ctx hi
      refine (hbyte _ hlt os' id' hkeeps hC').imp ?_
      rintro r s ⟨hkeeps', ht, hd⟩
      refine ⟨hkeeps', ht, ?_⟩
      rintro σ g ⟨f, base, hf, hat, hle, rfl⟩
      exact hd (hkeeps.denotes hf) hat (by omega)
    · rintro r s ⟨hkeeps, ht, hd⟩
      refine ⟨hkeeps, ht, fun {σ f base} hf hat hle => ?_⟩
      obtain ⟨y, hy, hall⟩ := hd ⟨f, base, hf, hat, hbytes ▸ hle, rfl⟩
      refine ⟨y, hy, ?_⟩
      rw [Loads, if_neg h1]
      exact hall

theorem readConstant_runs (hwf : os.view.WF) (hw : Storable w)
    (hread : os.view.Readable base (getMinBytesForWidth w))
    (hle : base + getMinBytesForWidth w ≤ os.size) (id : Nat) :
    Runs (readConstant opt ctx base w) (os, id) (ReadsBytes ctx os (fun _ b => b = base) w) := by
  have hpos := hw.pos
  refine readWith_runs (C := fun v => v.Readable base (getMinBytesForWidth w)) hwf hread hw id ?_ ?_
  · refine (read8_runs hwf hread le_rfl (by omega) (by omega) id).imp ?_
    rintro r s ⟨⟨hkeeps, -⟩, ht, hd⟩
    refine ⟨hkeeps, ht, ?_⟩
    rintro σ f _ hf rfl -
    exact hd hf
  · intro i hi os' id' hkeeps hread'
    have hsize : os'.size = os.size := hkeeps.same.size
    have hbytes : i < getMinBytesForWidth w := by
      unfold getMinBytesForWidth
      omega
    have hlt : base + i < os.size := by omega
    rw [Nat.mod_eq_of_lt (hlt.trans os.size_lt)]
    refine (read8_runs hkeeps.wf hread' (by omega) (by omega) (hsize ▸ hlt) id').imp ?_
    rintro r s ⟨hkeeps', ht, hd⟩
    refine ⟨hkeeps', ht, ?_⟩
    rintro σ f _ hf rfl -
    exact hd hf

/-- The offset is `b` under `σ`. -/
def OffsetAt (offset : Expr) (pw : Nat) (σ : Valuation) (b : Nat) : Prop :=
  ∃ x : BitVec pw, Denotes σ offset x ∧ x.toNat = b

theorem OffsetAt.zext {b : Nat} (hb : b < 2 ^ 32) (h : OffsetAt offset pw σ b) :
    OffsetAt (ZExtExpr.create offset 32) 32 σ b := by
  obtain ⟨x, hx, rfl⟩ := h
  refine ⟨_, (ZExtExpr.create_spec hx.typed (by decide)).2 hx, ?_⟩
  rw [BitVec.toNat_setWidth, Nat.mod_eq_of_lt hb]

theorem OffsetAt.add (opt : Bool) {b : Nat} (hb : b + i < 2 ^ 32) (h : OffsetAt offset 32 σ b) :
    OffsetAt (AddExpr.create opt offset (Expr.const i 32)) 32 σ (b + i) := by
  obtain ⟨x, hx, rfl⟩ := h
  refine ⟨x + BitVec.ofNat 32 i, AddExpr.create_simplifies.value
    (denotes_binary.mpr ⟨x, _, hx, denotes_const.mpr ⟨by decide, rfl⟩, rfl⟩), ?_⟩
  simp only [BitVec.toNat_add, BitVec.toNat_ofNat]
  omega

theorem typed_addOffset (ht : Typed offset 32) (i : Nat) :
    Typed (AddExpr.create opt offset (Expr.const i 32)) 32 :=
  (AddExpr.create_simplifies (σ := fun _ _ => 0)).typed
    (typed_binary.mpr ⟨ht, typed_const.mpr ⟨by decide, rfl⟩⟩)

/-- What a read needs of the updates: at a constant offset, that the bytes can be
read as they are, and else that the updates can be counted when all is flushed. -/
def ReadableAt (os : ObjectState) (offset : Expr) (w : Nat) : Prop :=
  match ZExtExpr.create offset 32 with
  | .constant c => os.view.Readable c.toNat (getMinBytesForWidth w)
  | _ => os.view.Counted os.view.pending

theorem ReadableAt.of_counted (h : os.view.Counted os.view.pending) : os.ReadableAt offset w := by
  unfold ReadableAt
  split
  · exact .inr (h.mono rfl (Nat.add_le_add_left (Nat.zero_le _) _))
  · exact h

/-- A read at an offset that some valuation puts in the bounds. -/
theorem read_runs (opt : Bool) (ctx : Context) (hwf : os.view.WF)
    (hread : os.ReadableAt offset w) (hw : Storable w) (ht : Typed offset pw) (hr : offset.Reduced)
    (hin : ∃ σ b, OffsetAt offset pw σ b ∧ b + getMinBytesForWidth w ≤ os.size) (id : Nat) :
    Runs (read opt ctx offset w) (os, id) (ReadsBytes ctx os (OffsetAt offset pw) w) := by
  have hpos := hw.pos
  have hsize := os.size_lt
  have hz : Typed (ZExtExpr.create offset 32) 32 :=
    (ZExtExpr.create_spec ht (by decide)).1
  have hzr := ZExtExpr.create_reduced (w := 32) hr
  have hat {σ b} (h : OffsetAt offset pw σ b) (hle : b + getMinBytesForWidth w ≤
      os.size) : OffsetAt (ZExtExpr.create offset 32) 32 σ b :=
    h.zext (by omega)
  unfold ReadableAt at hread
  unfold read
  cases hc : (ZExtExpr.create offset 32).isConstant with
  | true =>
    obtain ⟨c, hc⟩ := Expr.isConstant_iff.mp hc
    rw [hc] at hat hread ⊢
    have hb {σ b} (h : OffsetAt (.constant c) 32 σ b) : b = c.toNat := by
      obtain ⟨x, hx, rfl⟩ := h
      obtain ⟨-, rfl⟩ := denotes_constant.mp hx
      rfl
    obtain ⟨σ0, b0, h0, hle0⟩ := hin
    refine (readConstant_runs hwf hw hread (hb (hat h0 hle0) ▸ hle0) id).imp ?_
    rintro r s ⟨hkeeps, hrt, hd⟩
    exact ⟨hkeeps, hrt, fun hf h hle => hd hf (hb (hat h hle)) hle⟩
  | false =>
    have hcount : os.view.Counted os.view.pending := by
      split at hread
      · next c hcc =>
        rw [hcc] at hc
        simp [Expr.isConstant] at hc
      · exact hread
    refine Runs.imp (P := ReadsBytes ctx os (OffsetAt (ZExtExpr.create offset 32) 32) w) ?_ ?_
    · split
      · next c hcc =>
        rw [hcc] at hc
        simp [Expr.isConstant] at hc
      · refine readWith_runs (C := fun v => v.Counted v.pending) hwf hcount hw id ?_ ?_
        · refine (read8Symbolic_runs hwf hcount hc hz id).imp ?_
          rintro r s ⟨hkeeps, hrt, hd⟩
          refine ⟨hkeeps, hrt, ?_⟩
          rintro σ f _ hf ⟨x, hx, rfl⟩ hlt
          exact hd hf hx hlt
        · intro i hi os' id' hkeeps hcount'
          refine (read8Symbolic_runs hkeeps.wf hcount'
            (AddExpr.create_symbolic hzr hc (by decide)) (typed_addOffset hz i) id').imp ?_
          rintro r s ⟨hkeeps', hrt, hd⟩
          refine ⟨⟨hkeeps', hkeeps'.counted hcount'⟩, hrt, fun {σ f base} hf h hlt => ?_⟩
          obtain ⟨x, hx, hxb⟩ := h.add opt (i := i) (by omega)
          have := hd hf hx (by
            rw [hxb, show os'.size = os.size from hkeeps.same.size]
            exact hlt)
          rwa [hxb] at this
    · rintro r s ⟨hkeeps, hrt, hd⟩
      exact ⟨hkeeps, hrt, fun hf h hle => hd hf (hat h hle) hle⟩

end ObjectState

/-! ## Writing a byte -/

/-- One byte is written: the byte `b` at the offset `o`, for the valuations at
which these are known. -/
structure View.Puts (v v' : View) (At : Valuation → Nat → Prop)
    (Byte : Valuation → BitVec 8 → Prop) : Prop where
  same : Same v v'
  wf : v'.WF
  denotes : ∀ {σ f o b}, v.Denotes σ f → At σ o → o < v.size → Byte σ b →
    v'.Denotes σ (update f o b)

theorem View.Puts.imp {v' : View} {At' : Valuation → Nat → Prop}
    {Byte Byte' : Valuation → BitVec 8 → Prop} (h : v.Puts v' At Byte)
    (hat : ∀ {σ o}, o < v.size → At' σ o → At σ o)
    (hbyte : ∀ {σ b}, Byte' σ b → Byte σ b) : v.Puts v' At' Byte' :=
  ⟨h.same, h.wf, fun hd h' ho hb => h.denotes hd (hat ho h') ho (hbyte hb)⟩

/-- A byte is put into a cache, and not into the updates. -/
def View.cache (v : View) (o : Nat) (store : BitVec 8) (concrete : Bool)
    (known : Option Expr) : View :=
  { v with
    store := update v.store o store
    concrete := update v.concrete o concrete
    known := update v.known o known
    unflushed := update v.unflushed o true }

theorem View.WF.cache (h : v.WF) (hsome : concrete = !known.isSome)
    (ht : ∀ e, known = some e → Typed e 8) : (v.cache o store concrete known).WF where
  head := h.head
  known i hi e he := by
    by_cases hio : i = o
    · subst hio
      exact ht e (by simpa [View.cache] using he)
    · exact h.known i hi e (by simpa [View.cache, hio] using he)
  cached i hi hu := by
    by_cases hio : i = o
    · subst hio
      cases known <;> simp [View.cache, hsome]
    · simp only [View.cache, update_of_ne hio] at hu ⊢
      exact h.cached i hi hu
  exclusive i hi hc := by
    by_cases hio : i = o
    · subst hio
      cases known <;> simp [View.cache, hsome] at hc ⊢
    · simp only [View.cache, update_of_ne hio] at hc ⊢
      exact h.exclusive i hi hc

theorem View.Denotes.cache {b : BitVec 8} (h : v.Denotes σ f)
    (hc : concrete → store = b) (hk : ∀ e, known = some e → VitalSE.Denotes σ e b) :
    (v.cache o store concrete known).Denotes σ (update f o b) := by
  obtain ⟨us, hus, hlook⟩ := h.updates
  refine ⟨⟨us, hus, fun i hi hu => ?_⟩, fun i hi hi' => ?_, fun i hi e he => ?_⟩
  · have hio : i ≠ o := by
      rintro rfl
      simp [View.cache] at hu
    simp only [View.cache, update_of_ne hio] at hu ⊢
    exact hlook i hi hu
  · by_cases hio : i = o
    · subst hio
      simp only [View.cache, update_self] at hi' ⊢
      exact hc hi'
    · simp only [View.cache, update_of_ne hio] at hi' ⊢
      exact h.concrete i hi hi'
  · by_cases hio : i = o
    · subst hio
      simp only [View.cache, update_self] at he ⊢
      exact hk e he
    · simp only [View.cache, update_of_ne hio] at he ⊢
      exact h.known i hi e he

namespace ObjectState

theorem write8Concrete_puts (hwf : os.view.WF) (value : BitVec 8) :
    os.view.Puts (os.write8Concrete o value).view (fun _ o' => o' = o) (fun _ b => b = value) := by
  have hview : (os.write8Concrete o value).view =
      os.view.cache o value true none := by
    simp only [write8Concrete, view_markByteUnflushed, view_markByteConcrete, view_setKnownSymbolic]
    rfl
  rw [hview]
  refine ⟨⟨rfl, rfl, rfl, fun _ => id⟩, hwf.cache rfl (by simp), ?_⟩
  rintro σ f o' b hd h - rfl
  rw [h]
  exact hd.cache (fun _ => rfl) (by simp)

theorem write8_puts {value : Expr} (hwf : os.view.WF) (ht : Typed value 8) :
    os.view.Puts (os.write8 o value).view (fun _ o' => o' = o) (fun σ b => Denotes σ value b) := by
  unfold write8
  split
  · refine (write8Concrete_puts hwf _).imp (fun _ => id) fun h => ?_
    obtain ⟨-, rfl⟩ := denotes_constant.mp h
    simp
  · have hview : (((os.setKnownSymbolic o (some value)).markByteSymbolic
        o).markByteUnflushed o).view =
        os.view.cache o (os.view.store o) false (some value) := by
      simp [View.cache]
    rw [hview]
    refine ⟨⟨rfl, rfl, rfl, fun _ => id⟩, hwf.cache rfl (by simpa using ht), ?_⟩
    intro σ f o' b hd h _ hb
    rw [h]
    exact hd.cache (by simp) (by simpa using hb)

/-- A write at a symbolic offset goes to the updates, above all that was in the
caches. -/
theorem write8Symbolic_puts {offset value : Expr} (hwf : os.view.WF)
    (hc : offset.isConstant = false) (ht : Typed offset 32) (hv : Typed value 8) :
    ∃ os', os.write8Symbolic offset value = .ok os' ∧ os.view.Puts os'.view (OffsetAt offset 32)
        (fun σ b => Denotes σ value b) := by
  unfold write8Symbolic
  rw [if_neg (by simp [hc])]
  obtain ⟨os1, hrun, hkeeps, hdone⟩ := flushRangeForWrite_ok hwf
  have hz := ZExtExpr.create_spec ht (by decide : 0 < 32)
  refine ⟨{ os1 with head := .node os1.head (ZExtExpr.create offset 32) value },
    ?_, ⟨hkeeps.same.size, hkeeps.same.readOnly, hkeeps.same.owner, hkeeps.same.root⟩,
    ⟨wellTyped_node.mpr ⟨hkeeps.wf.head, hz.1, hv⟩, hkeeps.wf.known,
      hkeeps.wf.cached, hkeeps.wf.exclusive⟩, ?_⟩
  · simp only [fastRangeCheckOffset]
    rw [hrun]
    exact extend_eq hz.1 hv
  rintro σ f _ b hd ⟨x, hx, rfl⟩ hlt hb
  have hsize : os1.size = os.size := hkeeps.same.size
  obtain ⟨us, hus, hlook⟩ := (hkeeps.denotes hd).updates
  have hx' := hz.2 hx
  rw [BitVec.setWidth_eq] at hx'
  refine ⟨⟨(x, b) :: us, denotes_node.mpr ⟨us, x, b, hus, hx', hb, rfl⟩, ?_⟩, ?_, ?_⟩
  · intro i hi hu
    rw [overlay]
    by_cases hix : i = x.toNat
    · rw [hix, BitVec.ofNat_toNat, BitVec.setWidth_eq, if_pos rfl, update_self]
    · rw [if_neg, update_of_ne hix]
      · exact hlook i hi hu
      · rintro rfl
        refine hix ?_
        rw [BitVec.toNat_ofNat, Nat.mod_eq_of_lt]
        exact Nat.lt_trans hi os1.size_lt
  · intro i hi hi'
    have := (hdone i (hsize ▸ hi)).2.1
    exact absurd (this.symm.trans hi') (by simp)
  · intro i hi e he
    have := (hdone i (hsize ▸ hi)).2.2
    exact absurd (this.symm.trans he) (by simp)

end ObjectState

/-! ## Writing a value -/

section Store

variable {g : Nat → BitVec 8}

/-- The bytes after the first writes of a value with the bytes `g`. -/
def storeBytes (ctx : Context) (n : Nat) (f : Nat → BitVec 8) (base : Nat)
    (g : Nat → BitVec 8) : Nat → Nat → BitVec 8
  | 0 => f
  | k + 1 => update (storeBytes ctx n f base g k)
      (base + byteIndex ctx n k) (g k)

theorem storeBytes_of_lt : ∀ {k : Nat}, k ≤ n → i < k →
    storeBytes ctx n f base g k (base + byteIndex ctx n i) = g i
  | k + 1, hk, hi => by
    rw [storeBytes]
    by_cases hik : i = k
    · rw [hik, update_self]
    · rw [update_of_ne, storeBytes_of_lt (by omega) (by omega)]
      unfold byteIndex
      split <;> omega

theorem storeBytes_of_outside {a : Nat} (ha : a < base ∨ base + n ≤ a) :
    ∀ {k : Nat}, k ≤ n → storeBytes ctx n f base g k a = f a
  | 0, _ => rfl
  | k + 1, hk => by
    have := byteIndex_lt ctx hk
    rw [storeBytes, update_of_ne (by omega),
      storeBytes_of_outside ha (by omega)]

end Store

namespace ObjectState

variable {offset : Nat} {value : Expr} {step : ObjectState → Nat → Except Abort ObjectState}

/-- The value is written, under the valuations at which it and its place are
known. -/
structure WritesBytes (ctx : Context) (At : Valuation → Nat → Prop) (w : Nat)
    (Val : Valuation → BitVec w → Prop) (os os' : ObjectState) : Prop where
  same : os.view.Same os'.view
  wf : os'.view.WF
  stores : ∀ {σ f base y}, os.view.Denotes σ f → At σ base →
    base + getMinBytesForWidth w ≤ os.size → Val σ y →
      ∃ f', os'.view.Denotes σ f' ∧ Stores ctx f base y f'

/-- The loops that write the bytes of a value, from what they do to one. -/
theorem writeLoop (ctx : Context) (At : Valuation → Nat → Prop) (hwf : os.view.WF)
    (hstep : ∀ i < n, ∀ os', os.view.Same os'.view → os'.view.WF →
      ∃ os'', step os' i = .ok os'' ∧ os'.view.Puts os''.view
        (fun σ o => ∃ base, At σ base ∧ o = base + byteIndex ctx n i)
        (fun σ b => ∃ g, P σ g ∧ b = g i)) :
    ∀ k ≤ n, ∃ os', (List.range k).foldlM step os = .ok os' ∧ os.view.Same os'.view ∧ os'.view.WF ∧
      ∀ {σ f base g}, os.view.Denotes σ f → At σ base → base + n ≤ os.size →
        P σ g → os'.view.Denotes σ (storeBytes ctx n f base g k) := by
  intro k
  induction k with
  | zero => exact fun _ => ⟨os, rfl, .refl, hwf, fun hf _ _ _ => hf⟩
  | succ k ih =>
    intro hk
    obtain ⟨os1, hrun, hsame, hwf1, hd⟩ := ih (by omega)
    obtain ⟨os2, hrun', hputs⟩ := hstep k hk os1 hsame hwf1
    refine ⟨os2, ?_, hsame.trans hputs.same, hputs.wf, ?_⟩
    · rw [List.range_succ, List.foldlM_append, hrun]
      have : [k].foldlM step os1 = .ok os2 := by simpa using hrun'
      exact this
    · intro σ f base g hf hat hle hg
      have := byteIndex_lt ctx hk
      refine hputs.denotes (hd hf hat hle hg) ⟨base, hat, rfl⟩ ?_ ⟨g, hg, rfl⟩
      rw [hsame.size]
      exact Nat.lt_of_lt_of_le (by omega) hle

/-- A loop that writes all bytes of a value writes the value. -/
theorem writeBytes (At : Valuation → Nat → Prop) (Val : Valuation → BitVec w → Prop)
    (hwf : os.view.WF) (hw : Storable w) (h1 : w ≠ 1)
    (hstep : ∀ i < w / 8, ∀ os', os.view.Same os'.view → os'.view.WF →
      ∃ os'', step os' i = .ok os'' ∧ os'.view.Puts os''.view
        (fun σ o => ∃ base, At σ base ∧ o = base + byteIndex ctx (w / 8) i)
        (fun σ b => ∃ y, Val σ y ∧ b = y.extractLsb' (8 * i) 8)) :
    ∃ os', (List.range (w / 8)).foldlM step os = .ok os' ∧ WritesBytes ctx At w Val os os' := by
  obtain ⟨os', hrun, hsame, hwf', hd⟩ := writeLoop ctx At
    (P := fun σ g => ∃ y, Val σ y ∧ g = fun i => y.extractLsb' (8 * i) 8) hwf
    (fun i hi os' hs hw' => by
      obtain ⟨os'', hr, hp⟩ := hstep i hi os' hs hw'
      refine ⟨os'', hr, hp.imp (fun _ => id) ?_⟩
      rintro σ b ⟨g, ⟨y, hy, rfl⟩, rfl⟩
      exact ⟨y, hy, rfl⟩) (w / 8) le_rfl
  refine ⟨os', hrun, hsame, hwf', fun {σ f base y} hf hat hle hy => ?_⟩
  rw [(hw.bytes h1).2.2] at hle
  refine ⟨_, hd hf hat hle ⟨y, hy, rfl⟩, ?_⟩
  rw [Stores, if_neg h1]
  exact ⟨fun i hi => storeBytes_of_lt le_rfl hi, fun a ha => storeBytes_of_outside ha le_rfl⟩

/-- Bool is written as a byte. -/
theorem writesBool {Val : Valuation → BitVec 1 → Prop}
    (h : os.view.Puts os'.view At fun σ b => ∃ y, Val σ y ∧ b = y.setWidth 8) :
    WritesBytes ctx At 1 Val os os' where
  same := h.same
  wf := h.wf
  stores {σ f base y} hf hat hle hy := by
    refine ⟨_, h.denotes hf hat hle ⟨y, hy, rfl⟩, ?_⟩
    rw [Stores, if_pos rfl]

theorem writesByte {Val : Valuation → BitVec 8 → Prop}
    (h : os.view.Puts os'.view At Val) : WritesBytes ctx At 8 Val os os' where
  same := h.same
  wf := h.wf
  stores {σ f base y} hf hat hle hy := by
    refine ⟨_, h.denotes hf hat hle hy, ?_⟩
    rw [Stores, if_neg (by decide)]
    refine ⟨fun i hi => ?_, fun a ha => update_of_ne (by omega) _ _⟩
    obtain rfl : i = 0 := by omega
    have : byteIndex ctx (8 / 8) 0 = 0 := by simp [byteIndex]
    rw [this, Nat.add_zero, update_self]
    simp

theorem denotes_constant_eq {value y : BitVec w}
    (h : Denotes σ (.constant ⟨w, value⟩) y) : y = value := by
  obtain ⟨-, heq⟩ := denotes_constant.mp h
  cases heq
  rfl

/-- The loops that write to the caches do not fail. -/
theorem foldlM_ok {step : ObjectState → Nat → ObjectState} {l : List Nat} :
    l.foldlM (fun os i => Except.ok (step os i)) os =
      (.ok (l.foldl step os) : Except Abort ObjectState) :=
  List.foldlM_pure

/-- Writes at a constant offset are within 32 bits. -/
theorem constantOffset (hv : v.size < 2 ^ 32) (ho : o < v.size)
    (h : ∃ base, base = offset ∧ o = base + byteIndex ctx n i) :
    o = (offset + byteIndex ctx n i) % 2 ^ 32 := by
  obtain ⟨_, rfl, rfl⟩ := h
  rw [Nat.mod_eq_of_lt (Nat.lt_trans ho hv)]

theorem typed_byteOf (ht : Typed value w) (hi : i < w / 8) :
    Typed (ExtractExpr.create value (8 * i) 8) 8 :=
  (ExtractExpr.create_simplifies (σ := fun _ _ => 0) _ le_rfl).typed
    (typed_extract.mpr ⟨rfl, by decide, w, ht, by omega⟩)

theorem denotes_byteOf {b : BitVec 8} (hi : i < w / 8)
    (h : ∃ y : BitVec w, Denotes σ value y ∧ b = y.extractLsb' (8 * i) 8) :
    Denotes σ (ExtractExpr.create value (8 * i) 8) b := by
  obtain ⟨y, hy, rfl⟩ := h
  exact (ExtractExpr.create_simplifies _ le_rfl).value
    (denotes_extract.mpr ⟨by decide, w, y, by omega, hy, rfl⟩)

variable (hwf : os.view.WF) (hw : Storable w)

include hwf hw

/-- The concrete writes of the whole constant `value`. -/
theorem writeConcrete_writes (h1 : w ≠ 1) (hn : n = w / 8) (value : BitVec w) :
    WritesBytes ctx (fun _ b => b = offset) w (fun σ y => Denotes σ (.constant ⟨w, value⟩) y) os
      (os.writeConcrete offset ctx n value.toNat) := by
  subst hn
  obtain ⟨os', hrun, h⟩ := writeBytes (fun _ b => b = offset)
    (fun σ y => Denotes σ (.constant ⟨w, value⟩) y) hwf hw h1
    fun i _ os' _ hwf' => ⟨os'.write8Concrete ((offset + byteIndex ctx (w / 8) i) % 2 ^ 32)
      (BitVec.ofNat 8 (value.toNat >>> (8 * i))), rfl,
      (write8Concrete_puts hwf' _).imp (constantOffset os'.size_lt)
        fun ⟨y, hy, hb⟩ => by rw [hb, denotes_constant_eq hy]; rfl⟩
  rw [foldlM_ok] at hrun
  rw [writeConcrete, Except.ok.inj hrun]
  exact h

theorem writeExpr_writes (ht : Typed value w) : ∃ os', os.writeExpr offset ctx value = .ok os' ∧
      WritesBytes ctx (fun _ b => b = offset) w (fun σ y => Denotes σ value y) os os' := by
  unfold writeExpr
  rw [ht.getWidth_eq]
  by_cases h1 : w = 1
  · subst h1
    have hz := ZExtExpr.create_spec ht (by decide : 0 < 8)
    refine ⟨_, by rw [if_pos rfl]; rfl, writesBool ((write8_puts hwf hz.1).imp
      (fun _ => id) ?_)⟩
    rintro σ b ⟨y, hy, rfl⟩
    exact hz.2 hy
  · obtain ⟨hpos, hdvd, -⟩ := hw.bytes h1
    simp only [if_neg h1, if_neg (show ¬w ≠ w / 8 * 8 by omega)]
    obtain ⟨os', hrun, h⟩ := writeBytes _ _ hwf hw h1
      fun i hi os' _ hwf' => ⟨os'.write8 ((offset + byteIndex ctx (w / 8) i) % 2 ^ 32)
        (ExtractExpr.create value (8 * i) 8), rfl,
        (write8_puts hwf' (typed_byteOf ht hi)).imp
          (constantOffset os'.size_lt) (denotes_byteOf hi)⟩
    rw [foldlM_ok] at hrun
    exact ⟨os', hrun, h⟩

theorem writeConstant_writes (ht : Typed value w) :
    ∃ os', os.writeConstant offset ctx value = .ok os' ∧
      WritesBytes ctx (fun _ b => b = offset) w (fun σ y => Denotes σ value y) os os' := by
  unfold writeConstant
  split
  · next c =>
    obtain ⟨w, value⟩ := c
    obtain ⟨hpos, rfl⟩ := typed_constant.mp ht
    split
    · next hc =>
      obtain ⟨h64, hand⟩ := hc
      simp only at h64 hand hpos hw ⊢
      have : w = 1 ∨ w = 8 ∨ w = 16 ∨ w = 32 ∨ w = 64 ∨
          w = 24 ∨ w = 40 ∨ w = 48 ∨ w = 56 := by
        unfold Storable at hw
        omega
      rcases this with rfl | rfl | rfl | rfl | rfl | rfl | rfl | rfl | rfl
      · refine ⟨_, rfl, writesBool ((write8Concrete_puts hwf _).imp (fun _ => id) ?_)⟩
        rintro σ b ⟨y, hy, rfl⟩
        rw [denotes_constant_eq hy]
        simp [APInt.toNat]
      · refine ⟨_, rfl, writesByte ((write8Concrete_puts hwf _).imp (fun _ => id) fun hy => ?_)⟩
        rw [denotes_constant_eq hy]
        simp [APInt.toNat]
      · exact ⟨_, rfl, writeConcrete_writes hwf hw (by decide) rfl value⟩
      · exact ⟨_, rfl, writeConcrete_writes hwf hw (by decide) rfl value⟩
      · exact ⟨_, rfl, writeConcrete_writes hwf hw (by decide) rfl value⟩
      all_goals exact absurd hand (by decide)
    · exact writeExpr_writes hwf hw ht
  · exact writeExpr_writes hwf hw ht

/-- A write at an offset. -/
theorem write_writes (opt : Bool) (ctx : Context) {offset : Expr} (ht : Typed offset pw)
    (hr : offset.Reduced) (hv : Typed value w) : ∃ os', os.write opt ctx offset value = .ok os' ∧
      WritesBytes ctx (OffsetAt offset pw) w (fun σ y => Denotes σ value y) os os' := by
  have hpos := hw.pos
  have hz : Typed (ZExtExpr.create offset 32) 32 :=
    (ZExtExpr.create_spec ht (by decide)).1
  have hzr := ZExtExpr.create_reduced (w := 32) hr
  suffices ∃ os', os.write opt ctx offset value = .ok os' ∧
      WritesBytes ctx (OffsetAt (ZExtExpr.create offset 32) 32) w
        (fun σ y => Denotes σ value y) os os' by
    obtain ⟨os', hrun, h⟩ := this
    refine ⟨os', hrun, h.same, h.wf, fun hf hat hle hy => ?_⟩
    have := os.size_lt
    exact h.stores hf (hat.zext (by omega)) hle hy
  unfold write
  cases hc : (ZExtExpr.create offset 32).isConstant with
  | true =>
    obtain ⟨c, hc⟩ := Expr.isConstant_iff.mp hc
    rw [hc]
    obtain ⟨os', hrun, h⟩ := writeConstant_writes hwf hw hv
    refine ⟨os', hrun, h.same, h.wf, ?_⟩
    rintro σ f _ y hf ⟨x, hx, rfl⟩ hle hy
    obtain ⟨-, rfl⟩ := denotes_constant.mp hx
    exact h.stores hf rfl hle hy
  | false =>
    split
    · next c hcc =>
      rw [hcc] at hc
      simp [Expr.isConstant] at hc
    rw [hv.getWidth_eq]
    by_cases h1 : w = 1
    · subst h1
      have hb := ZExtExpr.create_spec hv (by decide : 0 < 8)
      obtain ⟨os', hrun, h⟩ := write8Symbolic_puts hwf hc hz hb.1
      refine ⟨os', by rw [if_pos rfl]; exact hrun,
        writesBool (h.imp (fun _ => id) ?_)⟩
      rintro σ b ⟨y, hy, rfl⟩
      exact hb.2 hy
    · obtain ⟨-, hdvd, -⟩ := hw.bytes h1
      simp only [if_neg h1, if_neg (show ¬w ≠ w / 8 * 8 by omega)]
      refine writeBytes _ _ hwf hw h1 fun i hi os' _ hwf' => ?_
      obtain ⟨os'', hrun, h⟩ := write8Symbolic_puts hwf'
        (AddExpr.create_symbolic hzr hc (by decide))
        (typed_addOffset hz (byteIndex ctx (w / 8) i)) (typed_byteOf hv hi)
      refine ⟨os'', hrun, h.imp ?_ (denotes_byteOf hi)⟩
      rintro σ o ho ⟨base, hat, rfl⟩
      exact hat.add opt (Nat.lt_trans ho os'.size_lt)

end ObjectState

end VitalSE
