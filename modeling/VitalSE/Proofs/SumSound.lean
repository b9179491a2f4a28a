import VitalSE.Proofs.EqSound

/-!
# Exclusive or, addition and subtraction are sound

At width one a sum is an exclusive or, and an exclusive or with a constant is
the operand or its negation. At other widths the constructors move constants to
the left; every such move is a `SumShape` law, and the recursion is followed
with the induction principle of the definitions.
-/

namespace VitalSE

variable {σ : Valuation} {opt : Bool} {a b c l r e : Expr} {k : BinaryKind}
  {cl cr : APInt}

/-! ## Operations on single bits -/

theorem of_bool_binary {s : Expr} (hw : a.getWidth = 1) (typed : Typed a 1 → Typed b 1 → Typed s 1)
    (value : ∀ {x y z : BitVec 1}, Denotes σ a y →
      Denotes σ b z → k.apply y z = some x → Denotes σ s x)
    (weight : s.weight ≤ (Expr.binary k a b).weight) : Simplifies σ (.binary k a b) s := by
  refine .of_binary ?_ ?_ weight
  · intro w ha hb
    obtain rfl : 1 = w := hw.symm.trans ha.getWidth_eq
    exact typed ha hb
  · intro w x y z hy hz hx
    obtain rfl : 1 = w := hw.symm.trans hy.typed.getWidth_eq
    exact value hy hz hx

theorem of_bool_cmp {ck : CmpKind} {s : Expr} (hw : a.getWidth = 1)
    (typed : Typed a 1 → Typed b 1 → Typed s 1) (value : ∀ {y z : BitVec 1}, Denotes σ a y →
      Denotes σ b z → Denotes σ s (BitVec.ofBool (ck.apply y z)))
    (weight : s.weight ≤ (Expr.cmp ck a b).weight) : Simplifies σ (.cmp ck a b) s := by
  refine .of_cmp ?_ ?_ weight
  · intro u ha hb
    obtain rfl : 1 = u := hw.symm.trans ha.getWidth_eq
    exact typed ha hb
  · intro u y z hy hz
    obtain rfl : 1 = u := hw.symm.trans hy.typed.getWidth_eq
    exact value hy hz

/-- Replace the operator by one that agrees with it on single bits. -/
theorem bool_binary {k' : BinaryKind} (hw : a.getWidth = 1)
    (h : ∀ y z : BitVec 1, k.apply y z = k'.apply y z)
    (weight : (Expr.binary k' a b).weight ≤ (Expr.binary k a b).weight) :
    Simplifies σ (.binary k a b) (.binary k' a b) :=
  of_bool_binary hw (fun ha hb => typed_binary.mpr ⟨ha, hb⟩)
    (fun hy hz hx => denotes_binary.mpr ⟨_, _, hy, hz, h _ _ ▸ hx⟩) weight

theorem typed_isZero (h : Typed e 1) : Typed (.cmp .eq e (Expr.const 0 e.getWidth)) 1 :=
  typed_cmp.mpr ⟨rfl, 1, h, typed_const.mpr ⟨one_pos, h.getWidth_eq⟩⟩

theorem denotes_isZero {x : BitVec 1} (h : Denotes σ e x) :
    Denotes σ (.cmp .eq e (Expr.const 0 e.getWidth)) (~~~x) := by
  refine denotes_cmp.mpr ⟨1, x, 0#1, h, EqExpr.denotes_zero h, ?_⟩
  have : ∀ x : BitVec 1, ~~~x = BitVec.ofBool (CmpKind.apply .eq x 0#1) := by
    decide
  exact this x

/-! ## Exclusive or, addition and subtraction -/

theorem XorExpr.createPartialR_simplifies :
    Simplifies σ (.binary .xor (.constant cl) r) (createPartialR opt cl r) := by
  unfold createPartialR
  split
  · next h => exact .left_identity fun y => by simp [BinaryKind.apply, eq_of_beq h]
  · next h =>
    split
    · next hw =>
      obtain ⟨x, rfl⟩ := APInt.exists_bits hw
      refine Simplifies.trans ?_ EqExpr.createPartialR_simplifies
      refine of_bool_binary rfl (fun _ hr => typed_cmp.mpr ⟨rfl, 1,
        typed_constant.mpr ⟨one_pos, rfl⟩, hr⟩) ?_ (by simp [Expr.weight])
      intro v y z hy hz hv
      obtain rfl := APInt.mk_inj.mp (denotes_constant.mp hy).2
      refine denotes_cmp.mpr ⟨1, 0#1, z, denotes_constant.mpr ⟨one_pos, rfl⟩, hz, ?_⟩
      have key : ∀ x z : BitVec 1, ¬x = 0 →
          x ^^^ z = BitVec.ofBool (CmpKind.apply .eq 0#1 z) := by decide
      simp only [BinaryKind.apply, Option.some.injEq] at hv
      rw [← hv]
      exact key x z (by simpa using h)
    · exact .refl

theorem XorExpr.create_simplifies : Simplifies σ (.binary .xor l r) (XorExpr.create opt l r) :=
  bcreateR_simplifies (by simp) (fun _ => rfl) createPartialR_simplifies .refl

theorem bool_add_xor (hw : a.getWidth = 1) : Simplifies σ (.binary .add a b) (.binary .xor a b) :=
  bool_binary hw (by decide) le_rfl

theorem bool_sub_xor (hw : a.getWidth = 1) : Simplifies σ (.binary .sub a b) (.binary .xor a b) :=
  bool_binary hw (by decide) le_rfl

open SumShape in
theorem AddExpr.createPartialR_simplifies_and :
    (∀ cl r, Simplifies σ (.binary .add (.constant cl) r) (AddExpr.createPartialR opt cl r)) ∧
    (∀ cl r, Simplifies σ (.binary .sub (.constant cl) r) (SubExpr.createPartialR opt cl r)) := by
  apply AddExpr.createPartialR.mutual_induct
  case case1 =>
    intro r cl hw
    rw [AddExpr.createPartialR.eq_def, if_pos hw]
    exact (bool_add_xor (a := .constant cl) hw).trans
      XorExpr.createPartialR_simplifies
  case case2 =>
    intro r cl hw hz
    rw [AddExpr.createPartialR.eq_def, if_neg hw, if_pos hz]
    exact .left_identity fun y => by simp [BinaryKind.apply, eq_of_beq hz]
  case case3 =>
    intro cl hw hz c y ih
    rw [AddExpr.createPartialR.eq_def, if_neg hw, if_neg hz]
    refine .trans (simplifies (add (leaf 0) (add (leaf 1) (leaf 2)))
      (add (add (leaf 0) (leaf 1)) (leaf 2)) ![.constant cl, .constant c, y]) ?_
    exact (Simplifies.binary .fold_binary .refl).trans (createL_simplifies (ih _))
  case case4 =>
    intro cl hw hz c y ih
    rw [AddExpr.createPartialR.eq_def, if_neg hw, if_neg hz]
    refine .trans (simplifies (add (leaf 0) (sub (leaf 1) (leaf 2)))
      (sub (add (leaf 0) (leaf 1)) (leaf 2)) ![.constant cl, .constant c, y]) ?_
    exact (Simplifies.binary .fold_binary .refl).trans (createL_simplifies (ih _))
  case case5 =>
    intro r cl hw hz h1 h2
    simp only [AddExpr.createPartialR, if_neg hw, if_neg hz]
    exact .refl
  case case6 =>
    intro r cl hw
    rw [SubExpr.createPartialR.eq_def, if_pos hw]
    exact (bool_sub_xor (a := .constant cl) hw).trans
      XorExpr.createPartialR_simplifies
  case case7 =>
    intro cl hw c y ih
    rw [SubExpr.createPartialR.eq_def, if_neg hw]
    refine .trans (simplifies (sub (leaf 0) (add (leaf 1) (leaf 2)))
      (sub (sub (leaf 0) (leaf 1)) (leaf 2)) ![.constant cl, .constant c, y]) ?_
    exact (Simplifies.binary .fold_binary .refl).trans (createL_simplifies (ih _))
  case case8 =>
    intro cl hw c y ih
    rw [SubExpr.createPartialR.eq_def, if_neg hw]
    refine .trans (simplifies (sub (leaf 0) (sub (leaf 1) (leaf 2)))
      (add (sub (leaf 0) (leaf 1)) (leaf 2)) ![.constant cl, .constant c, y]) ?_
    exact (Simplifies.binary .fold_binary .refl).trans (createL_simplifies (ih _))
  case case9 =>
    intro r cl hw h1 h2
    simp only [SubExpr.createPartialR, if_neg hw]
    exact .refl

theorem AddExpr.createPartialR_simplifies : Simplifies σ (.binary .add (.constant cl) r)
      (AddExpr.createPartialR opt cl r) :=
  createPartialR_simplifies_and.1 cl r

theorem SubExpr.createPartialR_simplifies : Simplifies σ (.binary .sub (.constant cl) r)
      (SubExpr.createPartialR opt cl r) :=
  AddExpr.createPartialR_simplifies_and.2 cl r

theorem AddExpr.createPartial_simplifies : Simplifies σ (.binary .add l (.constant cr))
      (AddExpr.createPartial opt l cr) :=
  (Simplifies.binary_comm (by simp)).trans createPartialR_simplifies

theorem SubExpr.createPartial_simplifies : Simplifies σ (.binary .sub l (.constant cr))
      (SubExpr.createPartial opt l cr) := by
  refine Simplifies.trans ?_ AddExpr.createPartial_simplifies
  refine .of_binary ?_ ?_ (by simp [Expr.weight])
  · intro w hl hr
    obtain ⟨hw, rfl⟩ := typed_constant.mp hr
    exact typed_binary.mpr ⟨hl, typed_constant.mpr ⟨hw, rfl⟩⟩
  · intro w x y z hy hz hx
    obtain ⟨hw, rfl⟩ := denotes_constant.mp hz
    refine denotes_binary.mpr ⟨y, 0#w - z, hy, denotes_constant.mpr ⟨hw, APInt.sub_mk ..⟩, ?_⟩
    simp only [BinaryKind.apply, Option.some.injEq] at hx ⊢
    rw [← hx]
    simp [BitVec.sub_eq_add_neg]

theorem SubExpr.self_simplifies : Simplifies σ (.binary .sub a a) (Expr.const 0 a.getWidth) := by
  refine .of_binary ?_ ?_ (Expr.weight_pos _)
  · intro w h _
    exact typed_const.mpr ⟨h.pos, h.getWidth_eq⟩
  · intro w x y z hy hz hx
    obtain rfl := hy.unique hz
    obtain rfl := hy.typed.getWidth_eq
    simp only [BinaryKind.apply, BitVec.sub_self, Option.some.injEq] at hx
    exact denotes_const.mpr ⟨hy.typed.pos, hx.symm⟩

theorem AddExpr.createL_simplifies (h : Simplifies σ r e) :
    Simplifies σ (.binary .add (.constant cl) r) (AddExpr.createL opt cl e) :=
  (Simplifies.binary .refl h).trans (VitalSE.createL_simplifies createPartialR_simplifies)

theorem SubExpr.createL_simplifies (h : Simplifies σ r e) :
    Simplifies σ (.binary .sub (.constant cl) r) (SubExpr.createL opt cl e) :=
  (Simplifies.binary .refl h).trans (VitalSE.createL_simplifies createPartialR_simplifies)

theorem SubExpr.createR_simplifies (h : Simplifies σ l e) :
    Simplifies σ (.binary .sub l (.constant cr)) (SubExpr.createR opt e cr) :=
  (Simplifies.binary h .refl).trans (VitalSE.createR_simplifies createPartial_simplifies)

open SumShape in
/-- All four functions at once, by the recursion of the definitions. In each
reassociating case the sum is moved into the shape of the result, the inner sum
is the induction hypothesis, and the outer one has a constant operand. -/
theorem AddExpr.create_simplifies_and :
    (∀ l r, Simplifies σ (.binary .add l r) (AddExpr.create opt l r)) ∧
    (∀ l r, Simplifies σ (.binary .add l r) (AddExpr.createAdd opt l r)) ∧
    (∀ l r, Simplifies σ (.binary .sub l r) (SubExpr.create opt l r)) ∧
    (∀ l r, Simplifies σ (.binary .sub l r) (SubExpr.createSub opt l r)) := by
  apply AddExpr.create.mutual_induct
  case case1 =>
    intro r cl
    rw [AddExpr.create]
    exact AddExpr.createL_simplifies .refl
  case case2 =>
    intro l cr hl
    simp only [AddExpr.create]
    exact AddExpr.createPartial_simplifies
  case case3 =>
    intro l r hl hr ih
    simp only [AddExpr.create]
    exact ih
  case case4 =>
    intro l r hw
    rw [AddExpr.createAdd.eq_def, if_pos hw]
    exact bool_add_xor hw
  case case5 =>
    intro r k a hw ih
    rw [AddExpr.createAdd.eq_def, if_neg hw]
    refine .trans (simplifies (add (add (leaf 0) (leaf 1)) (leaf 2))
      (add (leaf 0) (add (leaf 1) (leaf 2))) ![.constant k, a, r]) ?_
    exact AddExpr.createL_simplifies ih
  case case6 =>
    intro r k a hw ih
    rw [AddExpr.createAdd.eq_def, if_neg hw]
    refine .trans (simplifies (add (sub (leaf 0) (leaf 1)) (leaf 2))
      (add (leaf 0) (sub (leaf 2) (leaf 1))) ![.constant k, a, r]) ?_
    exact AddExpr.createL_simplifies ih
  case case7 =>
    intro l hw k b h1 h2 ih
    simp only [AddExpr.createAdd, if_neg hw]
    refine .trans (simplifies (add (leaf 0) (add (leaf 1) (leaf 2)))
      (add (leaf 1) (add (leaf 0) (leaf 2))) ![l, .constant k, b]) ?_
    exact AddExpr.createL_simplifies ih
  case case8 =>
    intro l hw k b h1 h2 ih
    simp only [AddExpr.createAdd, if_neg hw]
    refine .trans (simplifies (add (leaf 0) (sub (leaf 1) (leaf 2)))
      (add (leaf 1) (sub (leaf 0) (leaf 2))) ![l, .constant k, b]) ?_
    exact AddExpr.createL_simplifies ih
  case case9 =>
    intro l r hw h1 h2 h3 h4
    simp only [AddExpr.createAdd, if_neg hw]
    exact .refl
  case case10 =>
    intro r cl
    rw [SubExpr.create]
    exact SubExpr.createL_simplifies .refl
  case case11 =>
    intro l cr hl
    simp only [SubExpr.create]
    exact SubExpr.createPartial_simplifies
  case case12 =>
    intro l r hl hr ih
    simp only [SubExpr.create]
    exact ih
  case case13 =>
    intro l r hw
    rw [SubExpr.createSub.eq_def, if_pos hw]
    exact bool_sub_xor hw
  case case14 =>
    intro r hw
    rw [SubExpr.createSub.eq_def, if_neg hw, if_pos rfl]
    exact SubExpr.self_simplifies
  case case15 =>
    intro r k a hw hne ih
    rw [SubExpr.createSub.eq_def, if_neg hw, if_neg hne]
    refine .trans (simplifies (sub (add (leaf 0) (leaf 1)) (leaf 2))
      (add (leaf 0) (sub (leaf 1) (leaf 2))) ![.constant k, a, r]) ?_
    exact AddExpr.createL_simplifies ih
  case case16 =>
    intro r k a hw hne ih
    rw [SubExpr.createSub.eq_def, if_neg hw, if_neg hne]
    refine .trans (simplifies (sub (sub (leaf 0) (leaf 1)) (leaf 2))
      (sub (leaf 0) (add (leaf 1) (leaf 2))) ![.constant k, a, r]) ?_
    exact SubExpr.createL_simplifies ih
  case case17 =>
    intro l hw k b h1 h2 hne ih
    simp only [SubExpr.createSub, if_neg hw, if_neg hne]
    refine .trans (simplifies (sub (leaf 0) (add (leaf 1) (leaf 2)))
      (sub (sub (leaf 0) (leaf 2)) (leaf 1)) ![l, .constant k, b]) ?_
    exact SubExpr.createR_simplifies ih
  case case18 =>
    intro l hw k b h1 h2 hne ih
    simp only [SubExpr.createSub, if_neg hw, if_neg hne]
    refine .trans (simplifies (sub (leaf 0) (sub (leaf 1) (leaf 2)))
      (sub (add (leaf 0) (leaf 2)) (leaf 1)) ![l, .constant k, b]) ?_
    exact SubExpr.createR_simplifies ih
  case case19 =>
    intro l r hw hne h1 h2 h3 h4
    simp only [SubExpr.createSub, if_neg hw, if_neg hne]
    exact .refl

theorem AddExpr.create_simplifies : Simplifies σ (.binary .add l r) (AddExpr.create opt l r) :=
  create_simplifies_and.1 l r

theorem SubExpr.create_simplifies : Simplifies σ (.binary .sub l r) (SubExpr.create opt l r) :=
  AddExpr.create_simplifies_and.2.2.1 l r

end VitalSE
