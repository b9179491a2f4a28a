import VitalSE.Proofs.SumSound

/-!
# The smart constructors are sound

The rest of the constructors, and the theorem about all of them: called on
well-formed operands, a constructor returns an expression of the width of the
plain node which has, under every valuation that gives the plain node a value,
that value.
-/

namespace VitalSE

variable {σ : Valuation} {opt : Bool} {a b c l r t f e s : Expr} {k : BinaryKind}
  {cl cr ce : APInt} {off n : Nat} {ck : CmpKind} {u w : Nat} {g : BitVec 1 → BitVec 1}

/-! ## Multiplication, division and shifts -/

theorem MulExpr.createPartialR_simplifies :
    Simplifies σ (.binary .mul (.constant cl) r) (createPartialR cl r) := by
  unfold createPartialR
  split
  · next hw =>
    refine (bool_binary (a := .constant cl) hw (by decide) ?_).trans
      AndExpr.createPartialR_simplifies
    have := r.weight_pos
    simp only [Expr.weight]
    omega
  · split
    · next h =>
      have hx : cl.bits = 1 := by
        apply BitVec.eq_of_toNat_eq
        have h1 : cl.bits.toNat = 1 := eq_of_beq h
        exact h1.trans (Nat.mod_eq_of_lt (h1 ▸ cl.bits.isLt)).symm
      exact .left_identity fun y => by simp [BinaryKind.apply, hx]
    · exact .when fun h => .left_absorb fun y => by simp [BinaryKind.apply, eq_of_beq h]

theorem MulExpr.create_simplifies : Simplifies σ (.binary .mul l r) (MulExpr.create l r) := by
  refine bcreateR_simplifies (by simp) (fun _ => rfl) createPartialR_simplifies
    (.when fun hw => bool_binary hw (by decide) ?_)
  have h := Nat.mul_le_mul l.weight_pos r.weight_pos
  have hl := Nat.le_mul_of_pos_right l.weight r.weight_pos
  have hr := Nat.le_mul_of_pos_left r.weight l.weight_pos
  simp only [Expr.weight]
  omega

/-- An operation that on single bits, where it has a result, is its left
operand. -/
theorem bool_left (hw : a.getWidth = 1) (h : ∀ x y z : BitVec 1, k.apply y z = some x → x = y) :
    Simplifies σ (.binary k a b) a :=
  of_bool_binary hw (fun ha _ => ha) (fun hy _ hx => h _ _ _ hx ▸ hy)
    ((le_max_left _ _).trans (Expr.weight_binary_ge ..))

theorem divCreate_simplifies (h : ∀ x y z : BitVec 1, k.apply y z = some x → x = y) :
    Simplifies σ (.binary k l r) (divCreate k l r) :=
  bcreate_simplifies (.when fun hw => bool_left hw h)

theorem remCreate_simplifies (h : ∀ x y z : BitVec 1, k.apply y z = some x → x = 0) :
    Simplifies σ (.binary k l r) (remCreate k l r) := by
  refine bcreate_simplifies (.when fun hw => ?_)
  refine of_bool_binary hw (fun _ _ => typed_const.mpr ⟨one_pos, rfl⟩) ?_ (Expr.weight_pos _)
  intro x y z _ _ hx
  exact denotes_const.mpr ⟨one_pos, h _ _ _ hx⟩

theorem shiftCreate_simplifies (hk : k = .shl ∨ k = .lshr) :
    Simplifies σ (.binary k l r) (shiftCreate k opt l r) := by
  refine bcreate_simplifies (.when fun hw => ?_)
  refine Simplifies.trans ?_ ((Simplifies.binary .refl
    Expr.createIsZero_simplifies).trans AndExpr.create_simplifies)
  refine of_bool_binary hw (fun hl hr => typed_binary.mpr ⟨hl, typed_isZero hr⟩) ?_ ?_
  · intro x y z hy hz hx
    refine denotes_binary.mpr ⟨_, _, hy, denotes_isZero hz, ?_⟩
    have hshl : ∀ y z : BitVec 1,
        BinaryKind.apply .and y (~~~z) = BinaryKind.apply .shl y z := by decide
    have hlshr : ∀ y z : BitVec 1,
        BinaryKind.apply .and y (~~~z) = BinaryKind.apply .lshr y z := by decide
    rcases hk with rfl | rfl
    · exact (hshl y z).trans hx
    · exact (hlshr y z).trans hx
  · rcases hk with rfl | rfl <;> simp [Expr.weight, weight_const]

theorem AShrExpr.create_simplifies : Simplifies σ (.binary .ashr l r) (AShrExpr.create l r) :=
  bcreate_simplifies (.when fun hw => bool_left hw (by decide))

/-! ## Comparisons -/

theorem NeExpr.create_simplifies : Simplifies σ (.cmp .ne l r) (NeExpr.create opt l r) := by
  refine Simplifies.trans ?_ ((Simplifies.cmp .refl
    EqExpr.create_simplifies).trans EqExpr.create_simplifies)
  refine .of_cmp ?_ ?_ ?_
  · intro u hl hr
    exact typed_cmp.mpr ⟨rfl, 1, typed_const.mpr ⟨one_pos, rfl⟩, typed_cmp.mpr ⟨rfl, u, hl, hr⟩⟩
  · intro u y z hy hz
    refine denotes_cmp.mpr ⟨1, 0#1, _, denotes_const.mpr ⟨one_pos, rfl⟩,
      denotes_cmp.mpr ⟨u, y, z, hy, hz, rfl⟩, ?_⟩
    simp only [CmpKind.apply, bne]
    cases y == z <;> rfl
  · simp only [Expr.weight, weight_const]
    omega

/-- A bit or its negation, as the operand of a connective. -/
structure Literal (σ : Valuation) (c c' : Expr) (g : BitVec 1 → BitVec 1) : Prop where
  typed : Typed c 1 → Typed c' 1
  value : ∀ {b : BitVec 1}, Denotes σ c b → Denotes σ c' (g b)
  weight : c'.weight ≤ 2 * c.weight

theorem Literal.self : Literal σ c c id := ⟨id, id, by omega⟩

theorem Literal.isZero : Literal σ c (Expr.createIsZero opt c) (~~~·) where
  typed h := Expr.createIsZero_simplifies.typed (σ := σ) (typed_isZero h)
  value h := Expr.createIsZero_simplifies.value (denotes_isZero h)
  weight := Expr.createIsZero_simplifies.weight (σ := σ) |>.trans
    (by simp [Expr.weight, weight_const])

/-- A comparison of single bits that is a connective of literals. -/
theorem bool_cmp {l' r' : Expr} {g' : BitVec 1 → BitVec 1} (hw : l.getWidth = 1)
    (hk : k = .and ∨ k = .or) (hl : Literal σ l l' g) (hr : Literal σ r r' g')
    (h : ∀ y z, k.apply (g y) (g' z) = some (BitVec.ofBool (ck.apply y z)))
    (hck : (Expr.cmp ck l r).weight = 2 * l.weight + 2 * r.weight + 1) :
    Simplifies σ (.cmp ck l r) (.binary k l' r') := by
  refine of_bool_cmp hw (fun ha hb => typed_binary.mpr ⟨hl.typed ha, hr.typed hb⟩)
    (fun hy hz => denotes_binary.mpr ⟨_, _, hl.value hy, hr.value hz, h _ _⟩) ?_
  have := hl.weight
  have := hr.weight
  rw [hck]
  rcases hk with rfl | rfl <;> simp only [Expr.weight] <;> omega

theorem UltExpr.create_simplifies : Simplifies σ (.cmp .ult l r) (UltExpr.create opt l r) := by
  refine cmpcreate_simplifies (.when fun hw => ?_)
  exact (bool_cmp hw (.inl rfl) .isZero .self (by decide) rfl).trans AndExpr.create_simplifies

theorem UleExpr.create_simplifies : Simplifies σ (.cmp .ule l r) (UleExpr.create opt l r) := by
  refine cmpcreate_simplifies (.when fun hw => ?_)
  exact (bool_cmp hw (.inr rfl) .isZero .self (by decide) rfl).trans OrExpr.create_simplifies

theorem SltExpr.create_simplifies : Simplifies σ (.cmp .slt l r) (SltExpr.create opt l r) := by
  refine cmpcreate_simplifies (.when fun hw => ?_)
  exact (bool_cmp hw (.inl rfl) .self .isZero (by decide) rfl).trans AndExpr.create_simplifies

theorem SleExpr.create_simplifies : Simplifies σ (.cmp .sle l r) (SleExpr.create opt l r) := by
  refine cmpcreate_simplifies (.when fun hw => ?_)
  exact (bool_cmp hw (.inr rfl) .self .isZero (by decide) rfl).trans OrExpr.create_simplifies

/-- A comparison by its mirror image. -/
theorem cmp_swap {ck' : CmpKind} (h : ∀ {u : Nat} (y z : BitVec u), ck'.apply z y = ck.apply y z)
    (hw : (Expr.cmp ck' r l).weight = 2 * r.weight + 2 * l.weight + 1)
    (hw' : (Expr.cmp ck l r).weight = 2 * l.weight + 2 * r.weight + 1)
    (hs : Simplifies σ (.cmp ck' r l) s) : Simplifies σ (.cmp ck l r) s :=
  .trans (.of_cmp (fun hl hr => typed_cmp.mpr ⟨rfl, _, hr, hl⟩)
    (fun hy hz => denotes_cmp.mpr ⟨_, _, _, hz, hy, by rw [h]⟩) (by omega)) hs

theorem UgtExpr.create_simplifies : Simplifies σ (.cmp .ugt l r) (UgtExpr.create opt l r) :=
  cmp_swap (fun _ _ => rfl) rfl rfl UltExpr.create_simplifies

theorem UgeExpr.create_simplifies : Simplifies σ (.cmp .uge l r) (UgeExpr.create opt l r) :=
  cmp_swap (fun _ _ => rfl) rfl rfl UleExpr.create_simplifies

theorem SgtExpr.create_simplifies : Simplifies σ (.cmp .sgt l r) (SgtExpr.create opt l r) :=
  cmp_swap (fun _ _ => rfl) rfl rfl SltExpr.create_simplifies

theorem SgeExpr.create_simplifies : Simplifies σ (.cmp .sge l r) (SgeExpr.create opt l r) :=
  cmp_swap (fun _ _ => rfl) rfl rfl SleExpr.create_simplifies

/-! ## Extraction and concatenation -/

theorem extract_full : Simplifies σ (.extract e off e.getWidth) e := by
  refine .of_extract (fun _ _ hu => ⟨hu.1, rfl⟩) ?_ ?_
  · intro u y _ hle hy
    obtain rfl := hy.typed.getWidth_eq
    obtain rfl : off = 0 := by omega
    simpa using hy
  · simp only [Expr.weight]
    omega

theorem extract_constant {c : APInt} : Simplifies σ (.extract (.constant c) off n)
      (.constant (ConstantExpr.Extract c off n)) := by
  refine .of_extract (fun hw _ _ => typed_constant.mpr ⟨hw, rfl⟩) ?_
    (Expr.weight_pos _)
  intro u y hw hle hy
  obtain ⟨_, rfl⟩ := denotes_constant.mp hy
  refine denotes_constant.mpr ⟨hw, ?_⟩
  simp only [ConstantExpr.Extract, APInt.ashrBy, APInt.zextOrTrunc,
    APInt.setWidth_sshiftRight y hle]

theorem concat_constant : Simplifies σ (.concat (.constant cl) (.constant cr))
      (.constant (ConstantExpr.Concat cl cr)) where
  typed := by
    intro w h
    obtain ⟨u, v, hu, hv, rfl⟩ := typed_concat.mp h
    obtain ⟨hpos, rfl⟩ := typed_constant.mp hu
    obtain ⟨_, rfl⟩ := typed_constant.mp hv
    exact typed_constant.mpr ⟨by omega, rfl⟩
  value := by
    intro w x h
    obtain ⟨u, v, hu, hv, rfl⟩ := typed_concat.mp h.typed
    obtain ⟨y, z, hy, hz, rfl⟩ := (denotes_concat hu hv).mp h
    obtain ⟨hpos, rfl⟩ := denotes_constant.mp hy
    obtain ⟨_, rfl⟩ := denotes_constant.mp hz
    refine denotes_constant.mpr ⟨by omega, ?_⟩
    simp only [ConstantExpr.Concat, APInt.zextOrTrunc, APInt.shlBy, APInt.or, APInt.lift₂_mk]
    exact APInt.mk_inj.mpr (APInt.shiftLeft_or_eq_append y z)
  weight := Expr.weight_pos _

/-- A rewrite of an extract of a concatenation, from the two sides. -/
theorem of_extract_concat (typed : ∀ {u : Nat}, 0 < n → off + n ≤ u + r.getWidth → Typed l u →
      Typed r r.getWidth → Typed s n)
    (value : ∀ {u : Nat} {y : BitVec u} {z : BitVec r.getWidth}, 0 < n →
      off + n ≤ u + r.getWidth → Denotes σ l y → Denotes σ r z →
        Denotes σ s ((y ++ z).extractLsb' off n))
    (weight : s.weight ≤ (Expr.extract (.concat l r) off n).weight) :
    Simplifies σ (.extract (.concat l r) off n) s := by
  refine .of_extract ?_ ?_ weight
  · intro w hw hle h
    obtain ⟨u, v, hu, hv, rfl⟩ := typed_concat.mp h
    obtain rfl := hv.getWidth_eq
    exact typed hw hle hu hv
  · intro w x hw hle h
    obtain ⟨u, v, hu, hv, rfl⟩ := typed_concat.mp h.typed
    obtain ⟨y, z, hy, hz, rfl⟩ := (denotes_concat hu hv).mp h
    obtain rfl := hv.getWidth_eq
    exact value hw hle hy hz

/-- The extract skips the right side of the concatenation. -/
theorem extract_concat_left (h : r.getWidth ≤ off) : Simplifies σ (.extract (.concat l r) off n)
      (.extract l (off - r.getWidth) n) := by
  refine of_extract_concat ?_ ?_ ?_
  · intro u hw hle hu _
    exact typed_extract.mpr ⟨rfl, hw, u, hu, by omega⟩
  · intro u y z hw hle hy _
    exact denotes_extract.mpr ⟨hw, u, y, by omega, hy,
      BitVec.extractLsb'_append_eq_of_le h⟩
  · simp only [Expr.weight]
    omega

/-- The extract skips the left side of the concatenation. -/
theorem extract_concat_right (h : off + n ≤ r.getWidth) :
    Simplifies σ (.extract (.concat l r) off n) (.extract r off n) := by
  refine of_extract_concat (fun hw _ _ hv => typed_extract.mpr ⟨rfl, hw, _, hv, h⟩)
    (fun hw _ _ hz => denotes_extract.mpr ⟨hw, _, _, h, hz,
      BitVec.extractLsb'_append_eq_of_add_le h⟩) ?_
  simp only [Expr.weight]
  omega

/-- E(C(x,y)) = C(E(x), E(y)) when both sides are met. -/
theorem extract_concat_both (h₁ : off < r.getWidth) (h2 : r.getWidth < off + n) :
    Simplifies σ (.extract (.concat l r) off n) (.concat (.extract l 0 (off + n - r.getWidth))
        (.extract r off (r.getWidth - off))) := by
  refine of_extract_concat ?_ ?_ ?_
  · intro u hw hle hu hv
    exact typed_concat.mpr ⟨_, _, typed_extract.mpr ⟨rfl, by omega, u, hu, by omega⟩,
      typed_extract.mpr ⟨rfl, by omega, _, hv, by omega⟩, by omega⟩
  · intro u y z hw hle hy hz
    obtain ⟨a, ha⟩ : ∃ a, a = off + n - r.getWidth := ⟨_, rfl⟩
    obtain ⟨b, hb⟩ : ∃ b, b = r.getWidth - off := ⟨_, rfl⟩
    obtain rfl : n = a + b := by omega
    rw [← ha, ← hb]
    have hl : Denotes σ (.extract l 0 a) (y.extractLsb' 0 a) :=
      denotes_extract.mpr ⟨by omega, u, y, by omega, hy, rfl⟩
    have hr : Denotes σ (.extract r off b) (z.extractLsb' off b) :=
      denotes_extract.mpr ⟨by omega, _, z, by omega, hz, rfl⟩
    refine (denotes_concat hl.typed hr.typed).mpr ⟨_, _, hl, hr, ?_⟩
    rw [← BitVec.extractLsb'_append_extractLsb'_eq_extractLsb' rfl,
      BitVec.extractLsb'_append_eq_of_le (by omega),
      BitVec.extractLsb'_append_eq_of_add_le (by omega),
      show off + b - r.getWidth = 0 by omega]
  · simp only [Expr.weight]
    omega

/-- Merge contiguous extracts. -/
theorem concat_extract {wl wr : Nat} :
    Simplifies σ (.concat (.extract e (off + wr) wl) (.extract e off wr))
      (.extract e off (wl + wr)) where
  typed := by
    intro w ht
    obtain ⟨u, v, hu, hv, rfl⟩ := typed_concat.mp ht
    obtain ⟨rfl, _, t, he, hle⟩ := typed_extract.mp hu
    obtain ⟨rfl, _⟩ := typed_extract.mp hv
    exact typed_extract.mpr ⟨rfl, by omega, t, he, by omega⟩
  value := by
    intro w x hx
    obtain ⟨u, v, hu, hv, rfl⟩ := typed_concat.mp hx.typed
    obtain rfl := (typed_extract.mp hu).1
    obtain rfl := (typed_extract.mp hv).1
    obtain ⟨_, _, hl, hr, rfl⟩ := (denotes_concat hu hv).mp hx
    obtain ⟨_, t, y, hle, hy, rfl⟩ := denotes_extract.mp hl
    obtain ⟨_, t', z, _, hz, rfl⟩ := denotes_extract.mp hr
    obtain rfl := hy.typed.unique hz.typed
    obtain rfl := hy.unique hz
    exact denotes_extract.mpr ⟨by omega, t, y, by omega, hy,
      BitVec.extractLsb'_append_extractLsb'_eq_extractLsb' rfl⟩
  weight := by
    simp only [Expr.weight]
    omega

theorem ConcatExpr.createWith_simplifies {ext : Expr → Nat → Nat → Expr}
    (h : ∀ e off w, e.concatSize ≤ l.innerSize → Simplifies σ (.extract e off w) (ext e off w)) :
    Simplifies σ (.concat l r) (createWith ext l r) := by
  unfold createWith
  split
  · exact concat_constant
  · refine .when fun hmerge => ?_
    obtain ⟨rfl, rfl⟩ := hmerge
    exact concat_extract.trans (h _ _ _ le_rfl)
  · exact .refl

theorem ExtractExpr.create_simplifies (m : Nat) : ∀ {e : Expr} {off w : Nat},
    e.concatSize ≤ m → Simplifies σ (.extract e off w) (create e off w) := by
  induction m with
  | zero =>
    intro e off w h
    have := e.concatSize_pos
    omega
  | succ m ih =>
    intro e off w hm
    rw [create_eq]
    split
    · next hw => exact hw ▸ extract_full
    · split
      · exact extract_constant
      · next l r _ =>
        simp only [Expr.concatSize] at hm
        dsimp only
        split
        · next h => exact (extract_concat_left h).trans (ih (by omega))
        · next h₁ =>
          split
          · next h => exact (extract_concat_right h).trans (ih (by omega))
          · next h2 =>
            refine (extract_concat_both (by omega) (by omega)).trans
              ((Simplifies.concat (ih (by omega)) (ih (by omega))).trans ?_)
            refine ConcatExpr.createWith_simplifies fun e' off' w' he => ?_
            have := he.trans (innerSize_create l _ _)
            exact ih (by omega)
      · exact .refl

theorem ConcatExpr.create_simplifies : Simplifies σ (.concat l r) (ConcatExpr.create l r) :=
  createWith_simplifies fun _ _ _ _ => ExtractExpr.create_simplifies _ le_rfl

/-! ## Casts, negation and selection -/

theorem NotExpr.create_simplifies : Simplifies σ (.not e) (NotExpr.create e) := by
  unfold NotExpr.create
  split
  · refine ⟨?_, ?_, Expr.weight_pos _⟩
    · intro w h
      exact typed_constant.mpr (typed_constant.mp (typed_not.mp h))
    · intro w x h
      obtain ⟨y, hy, rfl⟩ := denotes_not.mp h
      obtain ⟨hw, rfl⟩ := denotes_constant.mp hy
      exact denotes_constant.mpr ⟨hw, rfl⟩
  · exact .refl

theorem select_const :
    Simplifies σ (.select (.constant ce) t f)
      (if ConstantExpr.isTrue ce then t else f) where
  typed := by
    intro w h
    obtain ⟨_, ht, hf⟩ := typed_select.mp h
    split
    · exact ht
    · exact hf
  value := by
    intro w x h
    obtain ⟨b, y, z, hb, hy, hz, rfl⟩ := denotes_select.mp h
    obtain ⟨_, rfl⟩ := denotes_constant.mp hb
    have key : ∀ b : BitVec 1,
        (ConstantExpr.isTrue ⟨1, b⟩ = true) = ¬(b = 0) := by decide
    simp only [key, ite_not]
    split
    · exact hz
    · exact hy
  weight := by
    split <;> simp only [Expr.weight] <;> omega

theorem select_same : Simplifies σ (.select c t t) t where
  typed := fun h => (typed_select.mp h).2.1
  value := by
    intro w x h
    obtain ⟨b, y, z, hb, hy, hz, rfl⟩ := denotes_select.mp h
    obtain rfl := hy.unique hz
    rw [ite_self]
    exact hy
  weight := by
    simp only [Expr.weight]
    omega

/-- A selection between single bits, from its operands. -/
theorem of_bool_select (hw : t.getWidth = 1)
    (typed : Typed c 1 → Typed t 1 → Typed f 1 → Typed s 1)
    (value : ∀ {b y z : BitVec 1}, Denotes σ c b →
      Denotes σ t y → Denotes σ f z → Denotes σ s (if b = 0 then z else y))
    (weight : s.weight ≤ (Expr.select c t f).weight) :
    Simplifies σ (.select c t f) s where
  typed := by
    intro w h
    obtain ⟨hc, ht, hf⟩ := typed_select.mp h
    obtain rfl : 1 = w := hw.symm.trans ht.getWidth_eq
    exact typed hc ht hf
  value := by
    intro w x h
    obtain ⟨b, y, z, hb, hy, hz, rfl⟩ := denotes_select.mp h
    obtain rfl : 1 = w := hw.symm.trans hy.typed.getWidth_eq
    exact value hb hy hz
  weight := weight

/-! A selection with a constant arm: the constant fixes one bit, and the
connective is checked on the two others. -/

section

variable {c' : Expr} {v : BitVec 1} (hk : k = .and ∨ k = .or) (hc : Literal σ c c' g)

include hk hc

theorem weight_literal : (Expr.binary k c' e).weight ≤ 2 * c.weight + e.weight + 1 := by
  have := hc.weight
  rcases hk with rfl | rfl <;> simp only [Expr.weight] <;> omega

theorem select_left (h : ∀ b z, k.apply (g b) z = some (if b = 0 then z else v)) :
    Simplifies σ (.select c (.constant ⟨1, v⟩) f) (.binary k c' f) := by
  refine of_bool_select rfl (fun hb _ hf => typed_binary.mpr ⟨hc.typed hb, hf⟩) ?_ ?_
  · intro b y z hb hy hz
    obtain rfl := APInt.mk_inj.mp (denotes_constant.mp hy).2
    exact denotes_binary.mpr ⟨_, _, hc.value hb, hz, h b z⟩
  · refine (weight_literal hk hc).trans ?_
    simp only [Expr.weight]
    omega

theorem select_right {cf : APInt} (hw : t.getWidth = 1)
    (hcf : cf.width = 1 → cf = ⟨1, v⟩)
    (h : ∀ b y, k.apply (g b) y = some (if b = 0 then v else y)) :
    Simplifies σ (.select c t (.constant cf)) (.binary k c' t) := by
  refine of_bool_select hw (fun hb ht _ => typed_binary.mpr ⟨hc.typed hb, ht⟩) ?_ ?_
  · intro b y z hb hy hz
    have hz := (denotes_constant.mp hz).2
    obtain rfl := APInt.mk_inj.mp ((hcf (congrArg APInt.width hz)).symm.trans hz)
    exact denotes_binary.mpr ⟨_, _, hc.value hb, hy, h b y⟩
  · refine (weight_literal hk hc).trans ?_
    simp only [Expr.weight]
    omega

end

theorem SelectExpr.create_simplifies :
    Simplifies σ (.select c t f) (SelectExpr.create opt c t f) := by
  unfold SelectExpr.create
  split
  · exact select_const
  split
  · next h => exact h ▸ select_same
  split
  · next hw =>
    split
    · split
      · next h =>
        obtain rfl := ConstantExpr.isTrue_iff.mp h
        exact (select_left (.inr rfl) .self (by decide)).trans OrExpr.create_simplifies
      · next h =>
        obtain rfl := ConstantExpr.eq_false_of_not_isTrue hw h
        exact (select_left (.inl rfl) .isZero (by decide)).trans
          AndExpr.create_simplifies
    · split
      · split
        · next h =>
          exact (select_right (.inr rfl) .isZero hw
            (fun _ => ConstantExpr.isTrue_iff.mp h) (by decide)).trans
            OrExpr.create_simplifies
        · next h =>
          exact (select_right (.inl rfl) .self hw
            (ConstantExpr.eq_false_of_not_isTrue · h) (by decide)).trans
            AndExpr.create_simplifies
      · exact .refl
  · exact .refl

/-! ## Reads -/

section

variable {root : Array} {head un : UpdateNode} {index : Expr} {sym : Bool} {i : Expr}
  {next : UpdateNode}

/-- An equality that folds to a constant decides whether its operands have one
value. -/
theorem isTrue_iff_eq {w : Nat} {x y : BitVec w}
    (h : EqExpr.create opt index i = .constant ce) (hx : Denotes σ index x)
    (hy : Denotes σ i y) : ConstantExpr.isTrue ce = true ↔ x = y := by
  have heq : Denotes σ (.constant ce) (BitVec.ofBool (x == y)) :=
    h ▸ EqExpr.create_simplifies.value (denotes_cmp.mpr ⟨w, x, y, hx, hy, rfl⟩)
  rw [(denotes_constant.mp heq).2]
  cases hxy : x == y
  · exact ⟨fun h => absurd h (by decide),
      fun h => absurd h (beq_eq_false_iff_ne.mp hxy)⟩
  · exact ⟨fun _ => beq_iff_eq.mp hxy, fun _ => by decide⟩

/-- Skip an update that is certainly elsewhere. -/
theorem read_skip {v : Expr} (h : ∀ {x y : BitVec 32}, Denotes σ index x → Denotes σ i y → x ≠ y) :
    Simplifies σ (.read root (.node next i v) index) (.read root next index) where
  typed := by
    intro w ht
    obtain ⟨rfl, hn, hi, hcount⟩ := typed_read.mp ht
    exact typed_read.mpr ⟨rfl, (wellTyped_node.mp hn).1, hi, counts_next hcount⟩
  value := by
    intro w x hx
    obtain rfl := (typed_read.mp hx.typed).1
    obtain ⟨hcount, us, j, hus, hj, hread⟩ := denotes_read.mp hx
    obtain ⟨us', i', b, hus', hi, hb, rfl⟩ := denotes_node.mp hus
    rw [readUpdates, if_neg (h hj hi)] at hread
    exact denotes_read.mpr ⟨counts_next hcount, us', j, hus', hj, hread⟩
  weight := by
    simp only [Expr.weight, UpdateNode.weight]
    omega

/-- Stop at an update that is certainly at the index. -/
theorem read_hit {v : Expr} (h : ∀ {x y : BitVec 32}, Denotes σ index x → Denotes σ i y → x = y) :
    Simplifies σ (.read root (.node next i v) index) v where
  typed := by
    intro w ht
    obtain ⟨rfl, hn, _⟩ := typed_read.mp ht
    exact (wellTyped_node.mp hn).2.2
  value := by
    intro w x hx
    obtain rfl := (typed_read.mp hx.typed).1
    obtain ⟨-, us, j, hus, hj, hread⟩ := denotes_read.mp hx
    obtain ⟨us', i', b, hus', hi, hb, rfl⟩ := denotes_node.mp hus
    rw [readUpdates, if_pos (h hj hi), Option.some.injEq] at hread
    exact hread ▸ hb
  weight := by
    simp only [Expr.weight, UpdateNode.weight]
    omega

/-- What the walk over the updates may end in: the value of an update, or a
shorter list, which without a symbolic write is empty. -/
def ReadExpr.Resolves (σ : Valuation) (root : Array) (head : UpdateNode)
    (index : Expr) : Expr ⊕ UpdateNode × Bool → Prop
  | .inl v => Simplifies σ (.read root head index) v
  | .inr (un, sym) =>
    Simplifies σ (.read root head index) (.read root un index) ∧
      (sym = false → un = .null)

theorem ReadExpr.Resolves.trans {res : Expr ⊕ UpdateNode × Bool}
    (h : Simplifies σ (.read root head index) (.read root next index))
    (h' : Resolves σ root next index res) : Resolves σ root head index res := by
  match res with
  | .inl _ => exact Simplifies.trans h h'
  | .inr _ => exact ⟨h.trans h'.1, h'.2⟩

theorem ReadExpr.walkUpdates_resolves (σ : Valuation) (opt : Bool)
    (root : Array) (index : Expr) : ∀ head : UpdateNode,
    Resolves σ root head index (walkUpdates opt index head)
  | .null => ⟨.refl, fun _ => rfl⟩
  | .node next i v => by
    rw [walkUpdates]
    split
    · next ce hce =>
      split
      · next htrue =>
        exact read_hit fun hx hy => (isTrue_iff_eq hce hx hy).mp htrue
      · next hfalse =>
        exact .trans
          (read_skip fun hx hy => (isTrue_iff_eq hce hx hy).not.mp hfalse)
          (walkUpdates_resolves σ opt root index next)
    · exact ⟨.refl, fun h => absurd h (by decide)⟩

/-- A byte that can only be `v`. -/
theorem read_initial {v : BitVec 8} (h : ∀ {j : BitVec 32} {b}, Denotes σ index j →
      root.initialValue σ j.toNat = some b → b = v) :
    Simplifies σ (.read root .null index) (.constant ⟨8, v⟩) where
  typed := by
    intro w ht
    obtain ⟨rfl, _⟩ := typed_read.mp ht
    exact typed_constant.mpr ⟨by decide, rfl⟩
  value := by
    intro w x hx
    obtain rfl := (typed_read.mp hx.typed).1
    obtain ⟨-, us, j, hus, hj, hread⟩ := denotes_read.mp hx
    obtain rfl := denotes_null.mp hus
    rw [h hj hread]
    exact denotes_constant.mpr ⟨by decide, rfl⟩
  weight := Expr.weight_pos _

theorem read_constant (hroot : root.isConstantArray = true) :
    Simplifies σ (.read root .null (.constant ce))
      (.constant ⟨8, root.constantValues.getD ce.toNat 0⟩) := by
  refine read_initial fun hj hb => ?_
  obtain ⟨_, rfl⟩ := denotes_constant.mp hj
  rw [Array.initialValue, if_pos hroot] at hb
  rw [List.getD_eq_getElem?_getD]
  simp only [APInt.toNat, hb, Option.getD_some]

theorem ReadExpr.create_simplifies :
    Simplifies σ (.read root head index) (ReadExpr.create opt root head index) := by
  have h := walkUpdates_resolves σ opt root index head
  unfold ReadExpr.create
  split
  · next hwalk =>
    rw [hwalk] at h
    exact h
  · next un sym hwalk =>
    rw [hwalk] at h
    obtain ⟨hun, hnull⟩ := h
    split
    · split
      · next hconst =>
        simp only [Bool.and_eq_true, Bool.not_eq_true', decide_eq_true_eq]
          at hconst
        obtain rfl := hnull hconst.1.2
        exact hun.trans (read_constant hconst.1.1)
      · split
        · exact hun
        · exact .refl
    · exact .refl

end

/-! ## Casts

An extension may be asked for at a smaller width, and is a truncation then.
The plain node is not well formed in that case, so the constructors are
described on the value of their operand. -/

theorem create_truncate (hlt : w < e.getWidth) (hw : 0 < w) (ht : Typed e u) :
    Typed (ExtractExpr.create e 0 w) w ∧ ∀ {σ : Valuation} {x : BitVec u}, Denotes σ e x →
        Denotes σ (ExtractExpr.create e 0 w) (x.setWidth w) := by
  have hu := ht.getWidth_eq
  have hs : ∀ {σ}, Simplifies σ (.extract e 0 w) (ExtractExpr.create e 0 w) :=
    ExtractExpr.create_simplifies _ le_rfl
  refine ⟨(hs (σ := .zero)).typed (typed_extract.mpr ⟨rfl, hw, u, ht, by omega⟩), ?_⟩
  intro σ x hx
  exact hs.value (denotes_extract.mpr ⟨hw, u, x, by omega, hx,
    BitVec.setWidth_eq_extractLsb' (by omega)⟩)

theorem ZExtExpr.create_spec (ht : Typed e u) (hw : 0 < w) : Typed (ZExtExpr.create e w) w ∧
      ∀ {σ : Valuation} {x : BitVec u}, Denotes σ e x →
        Denotes σ (ZExtExpr.create e w) (x.setWidth w) := by
  unfold ZExtExpr.create
  split
  · next h =>
    obtain rfl := h.trans ht.getWidth_eq
    exact ⟨ht, fun hx => by simpa using hx⟩
  · split
    · next h => exact create_truncate h hw ht
    · next hlt =>
      have hle : u ≤ w := ht.getWidth_eq ▸ Nat.le_of_not_lt hlt
      split
      · refine ⟨typed_constant.mpr ⟨hw, rfl⟩, ?_⟩
        intro σ x hx
        obtain ⟨_, rfl⟩ := denotes_constant.mp hx
        exact denotes_constant.mpr ⟨hw, rfl⟩
      · exact ⟨typed_zext.mpr ⟨rfl, u, ht, hle⟩, fun hx => denotes_zext.mpr ⟨u, _, hle, hx, rfl⟩⟩

theorem SExtExpr.create_spec (ht : Typed e u) (hw : 0 < w) : Typed (SExtExpr.create e w) w ∧
      ∀ {σ : Valuation} {x : BitVec u}, Denotes σ e x →
        Denotes σ (SExtExpr.create e w) (x.signExtend w) := by
  unfold SExtExpr.create
  split
  · next h =>
    obtain rfl := h.trans ht.getWidth_eq
    exact ⟨ht, fun hx => by simpa using hx⟩
  · split
    · next h =>
      have hle : w ≤ u := ht.getWidth_eq ▸ h.le
      refine ⟨(create_truncate h hw ht).1, fun {σ x} hx => ?_⟩
      rw [BitVec.signExtend_eq_setWidth_of_le _ hle]
      exact (create_truncate h hw ht).2 hx
    · next hlt =>
      have hle : u ≤ w := ht.getWidth_eq ▸ Nat.le_of_not_lt hlt
      split
      · refine ⟨typed_constant.mpr ⟨hw, rfl⟩, ?_⟩
        intro σ x hx
        obtain ⟨_, rfl⟩ := denotes_constant.mp hx
        exact denotes_constant.mpr ⟨hw, rfl⟩
      · exact ⟨typed_sext.mpr ⟨rfl, u, ht, hle⟩, fun hx => denotes_sext.mpr ⟨u, _, hle, hx, rfl⟩⟩

theorem ZExtExpr.create_simplifies : Simplifies σ (.zext e n) (ZExtExpr.create e n) where
  typed := by
    intro w h
    obtain ⟨rfl, u, hu, _⟩ := typed_zext.mp h
    exact (create_spec hu h.pos).1
  value := by
    intro w x h
    obtain rfl := (typed_zext.mp h.typed).1
    obtain ⟨u, y, _, hy, rfl⟩ := denotes_zext.mp h
    exact (create_spec hy.typed h.typed.pos).2 hy
  weight := by
    have := e.weight_pos
    unfold ZExtExpr.create
    split
    · simp only [Expr.weight]
      omega
    · split
      · exact (ExtractExpr.create_simplifies (σ := σ) _ le_rfl).weight
      · split <;> simp only [Expr.weight] <;> omega

theorem SExtExpr.create_simplifies : Simplifies σ (.sext e n) (SExtExpr.create e n) where
  typed := by
    intro w h
    obtain ⟨rfl, u, hu, _⟩ := typed_sext.mp h
    exact (create_spec hu h.pos).1
  value := by
    intro w x h
    obtain rfl := (typed_sext.mp h.typed).1
    obtain ⟨u, y, _, hy, rfl⟩ := denotes_sext.mp h
    exact (create_spec hy.typed h.typed.pos).2 hy
  weight := by
    have := e.weight_pos
    unfold SExtExpr.create
    split
    · simp only [Expr.weight]
      omega
    · split
      · exact (ExtractExpr.create_simplifies (σ := σ) _ le_rfl).weight
      · split <;> simp only [Expr.weight] <;> omega

/-! ## All constructors -/

theorem rebuild_simplifies (σ : Valuation) (opt : Bool) (e : Expr) :
    Simplifies σ e (e.rebuild opt) := by
  cases e with
  | constant | notOptimized => exact .refl
  | read => exact ReadExpr.create_simplifies
  | select => exact SelectExpr.create_simplifies
  | concat => exact ConcatExpr.create_simplifies
  | extract => exact ExtractExpr.create_simplifies _ le_rfl
  | zext => exact ZExtExpr.create_simplifies
  | sext => exact SExtExpr.create_simplifies
  | not => exact NotExpr.create_simplifies
  | binary k l r =>
    cases k with
    | add => exact AddExpr.create_simplifies
    | sub => exact SubExpr.create_simplifies
    | mul => exact MulExpr.create_simplifies
    | udiv | sdiv => exact divCreate_simplifies (by decide)
    | urem | srem => exact remCreate_simplifies (by decide)
    | and => exact AndExpr.create_simplifies
    | or => exact OrExpr.create_simplifies
    | xor => exact XorExpr.create_simplifies
    | shl => exact shiftCreate_simplifies (.inl rfl)
    | lshr => exact shiftCreate_simplifies (.inr rfl)
    | ashr => exact AShrExpr.create_simplifies
  | cmp k l r =>
    cases k with
    | eq => exact EqExpr.create_simplifies
    | ne => exact NeExpr.create_simplifies
    | ult => exact UltExpr.create_simplifies
    | ule => exact UleExpr.create_simplifies
    | slt => exact SltExpr.create_simplifies
    | sle => exact SleExpr.create_simplifies
    | ugt => exact UgtExpr.create_simplifies
    | uge => exact UgeExpr.create_simplifies
    | sgt => exact SgtExpr.create_simplifies
    | sge => exact SgeExpr.create_simplifies

theorem denotes_read_const {σ : Valuation} {array : Array} {i : Nat} {x : BitVec 8}
    (hi : i < 2 ^ 32) (hx : array.initialValue σ i = some x) :
    Denotes σ (.read array .null (Expr.const i 32)) x := by
  refine denotes_read.mpr ⟨counts_null, [], BitVec.ofNat 32 i, denotes_null.mpr rfl,
    denotes_const.mpr ⟨by decide, rfl⟩, ?_⟩
  rw [readUpdates, BitVec.toNat_ofNat, Nat.mod_eq_of_lt hi]
  exact hx

/-- A symbolic array of four bytes. -/
def Array.four : Array := ⟨0, "arr", 4, [], by decide, .inl rfl⟩

theorem denotes_read_four (σ : Valuation) {i : Nat} (hi : i < 4) :
    Denotes σ (.read Array.four .null (Expr.const i 32)) (σ Array.four i) :=
  denotes_read_const (by omega) rfl

namespace UpdateNode

variable {index value : Expr}

/-- `k` more updates, all of them the same. -/
def repeated (index value : Expr) : Nat → UpdateNode → UpdateNode
  | 0, head => head
  | k + 1, head => repeated index value k (.node head index value)

theorem length_repeated : ∀ (k : Nat) (head : UpdateNode),
    (repeated index value k head).length = head.length + k
  | 0, _ => rfl
  | k + 1, head => by
    rw [repeated, length_repeated k, length]
    omega

end UpdateNode

/-- A constant array that holds a `7`. -/
def Array.seven : Array :=
  { Array.byte 0 "seven" with constantValues := [7], values_size := .inr rfl }

section

/-- The first byte of the symbolic array, as a position. -/
def Expr.firstByte : Expr := .zext (.read Array.four .null (.const 0 32)) 32

theorem denotes_firstByte (σ : Valuation) (hσ : σ Array.four 0 = 0) :
    Denotes σ .firstByte 0#32 :=
  denotes_zext.mpr ⟨8, 0, by decide, hσ ▸ denotes_read_four σ (by decide), rfl⟩

variable {head : UpdateNode}

end

end VitalSE
