import VitalSE.Proofs.ConstraintsSound

/-!
# The nodes the constructors build

A property of nodes holds everywhere in an expression when each of its nodes has
it, those in updates included. `NodeRules P A` lists the nodes that the
constructors allocate, each with what the constructor has checked before: which
operands are not constant, that a width is not 1, that a constant is not a
neutral element. If `P` holds of these nodes, everything that is built from
operands with `P` everywhere has `P` everywhere, and so has what a replacing
visitor makes of such an expression.

`A` says whether the assertions of the constructors about the widths of their
operands count.
-/

namespace VitalSE

variable {e : Expr} {root : Array} {head : UpdateNode} {opt : Bool} {P : Expr → Prop}

mutual

/-- Every node of the expression has the property. -/
def Expr.Everywhere (P : Expr → Prop) : Expr → Prop
  | .constant c => P (.constant c)
  | .notOptimized e => e.Everywhere P ∧ P (.notOptimized e)
  | .read root head index =>
    head.Everywhere P ∧ index.Everywhere P ∧ P (.read root head index)
  | .select c t f =>
    c.Everywhere P ∧ t.Everywhere P ∧ f.Everywhere P ∧ P (.select c t f)
  | .concat l r => l.Everywhere P ∧ r.Everywhere P ∧ P (.concat l r)
  | .extract e off w => e.Everywhere P ∧ P (.extract e off w)
  | .zext e w => e.Everywhere P ∧ P (.zext e w)
  | .sext e w => e.Everywhere P ∧ P (.sext e w)
  | .not e => e.Everywhere P ∧ P (.not e)
  | .binary k l r => l.Everywhere P ∧ r.Everywhere P ∧ P (.binary k l r)
  | .cmp k l r => l.Everywhere P ∧ r.Everywhere P ∧ P (.cmp k l r)

/-- And every node of the updates. -/
def UpdateNode.Everywhere (P : Expr → Prop) : UpdateNode → Prop
  | .null => True
  | .node next index value =>
    next.Everywhere P ∧ index.Everywhere P ∧ value.Everywhere P

end

/-- The operations that single bits have too. -/
def BinaryKind.isBitwise : BinaryKind → Bool
  | .and | .or | .xor => true
  | _ => false

/-- The operations with a constructor that moves a constant to the left. -/
def BinaryKind.isLinear : BinaryKind → Bool
  | .add | .sub | .mul | .xor => true
  | _ => false

/-- Division, remainder and shifts. -/
def BinaryKind.isQuotient : BinaryKind → Bool
  | .udiv | .sdiv | .urem | .srem | .shl | .lshr | .ashr => true
  | _ => false

/-- The inequalities the constructors bring the others to. -/
def CmpKind.isLess : CmpKind → Bool
  | .ult | .ule | .slt | .sle => true
  | _ => false

/-- The nodes that are allocated. -/
class NodeRules (P : Expr → Prop) (A : outParam Prop) : Prop where
  constant : ∀ c, P (.constant c)
  notOptimized : ∀ e, P (.notOptimized e)
  read : ∀ root head index, P (.read root head index)
  select : ∀ {c t f : Expr}, c.isConstant = false → (A → t.getWidth = f.getWidth) →
    (t.getWidth = 1 → t.isConstant = false ∧ f.isConstant = false) → P (.select c t f)
  concat : ∀ {l r : Expr}, (l.isConstant → r.isConstant = false) → P (.concat l r)
  extract : ∀ {e : Expr} {off w : Nat}, e.isConstant = false → w ≠ e.getWidth →
    P (.extract e off w)
  zext : ∀ {e : Expr} {w : Nat}, e.isConstant = false → e.getWidth < w → P (.zext e w)
  sext : ∀ {e : Expr} {w : Nat}, e.isConstant = false → e.getWidth < w → P (.sext e w)
  not : ∀ {e : Expr}, e.isConstant = false → P (.not e)
  bitwise : ∀ {k : BinaryKind} {l r : Expr}, k.isBitwise → l.isConstant = false →
    r.isConstant = false → P (.binary k l r)
  mask : ∀ {k : BinaryKind} {l : Expr} {cr : APInt}, k = .and ∨ k = .or →
    l.isConstant = false → ¬ cr.isAllOnes → ¬ cr.isZero → P (.binary k l (.constant cr))
  linear : ∀ {k : BinaryKind} {l r : Expr}, k.isLinear → r.isConstant = false →
    l.getWidth ≠ 1 → P (.binary k l r)
  quotient : ∀ {k : BinaryKind} {l r : Expr}, k.isQuotient →
    (l.isConstant → r.isConstant = false) → (A → l.getWidth = r.getWidth) →
    l.getWidth ≠ 1 → P (.binary k l r)
  eq : ∀ {l r : Expr}, l.isConstant = false → r.isConstant = false → P (.cmp .eq l r)
  eqConstant : ∀ {cl : APInt} {r : Expr}, r.isConstant = false →
    (cl.width = 1 → ConstantExpr.isFalse cl) → P (.cmp .eq (.constant cl) r)
  less : ∀ {k : CmpKind} {l r : Expr}, k.isLess → (l.isConstant → r.isConstant = false) →
    (A → l.getWidth = r.getWidth) → l.getWidth ≠ 1 → P (.cmp k l r)
  /-- A sum with a constant has a symbolic rest. -/
  sum : ∀ {k : BinaryKind} {c : APInt} {y : Expr}, P (.binary k (.constant c) y) →
    k = .add ∨ k = .sub → y.isConstant = false

theorem Expr.isConstant_eq_false (h : ∀ c, e ≠ .constant c) : e.isConstant = false := by
  cases e with
  | constant c => exact absurd rfl (h c)
  | _ => rfl

section

variable {A : Prop} [rules : NodeRules P A]

include rules

theorem Expr.const_everywhere (n w : Nat) : (Expr.const n w).Everywhere P :=
  rules.constant _

/-! ## The shared shapes -/

open VitalSE.Expr (isConstant_eq_false const_everywhere kids)

section

variable {k : BinaryKind} {ck : CmpKind} {l r c t f e : Expr} {cl cr : APInt} {w : Nat}
  {create : Expr → Expr → Expr} {partialR : APInt → Expr → Expr} {eqIndex : Nat → Expr}
  {partialL : Expr → APInt → Expr}

theorem createL_everywhere (h : r.isConstant = false → (partialR cl r).Everywhere P) :
    (createL k partialR cl r).Everywhere P := by
  unfold createL
  split
  · exact rules.constant _
  · next hr => exact h (isConstant_eq_false hr)

theorem createR_everywhere (h : l.isConstant = false → (partialL l cr).Everywhere P) :
    (createR k partialL l cr).Everywhere P := by
  unfold createR
  split
  · exact rules.constant _
  · next hl => exact h (isConstant_eq_false hl)

theorem bcreateR_everywhere
    (hL : ∀ cr, l.isConstant = false → (partialL l cr).Everywhere P)
    (hR : ∀ cl, r.isConstant = false → (partialR cl r).Everywhere P)
    (h : l.isConstant = false → r.isConstant = false → (create l r).Everywhere P) :
    (bcreateR k partialL partialR create l r).Everywhere P := by
  unfold bcreateR
  split
  · exact createL_everywhere (hR _)
  · next hl =>
    split
    · exact hL _ (isConstant_eq_false hl)
    · next hr =>
      exact h (isConstant_eq_false hl) (isConstant_eq_false hr)

omit rules in
theorem isConstant_right_eq_false
    (h : ∀ cl cr, l = .constant cl → r = .constant cr → False) (hl : l.isConstant) :
    r.isConstant = false := by
  cases l with
  | constant cl => exact isConstant_eq_false fun cr hr => h cl cr rfl hr
  | _ => cases hl

section

variable (h : (l.isConstant → r.isConstant = false) → (create l r).Everywhere P)

include h

theorem bcreate_everywhere : (bcreate k create l r).Everywhere P := by
  unfold bcreate
  split
  · exact rules.constant _
  · next hne => exact h fun hl => isConstant_right_eq_false hne hl

theorem cmpcreate_everywhere : (cmpcreate ck create l r).Everywhere P := by
  unfold cmpcreate
  split
  · exact rules.constant _
  · next hne => exact h fun hl => isConstant_right_eq_false hne hl

end

/-! ## Conjunction, disjunction and equality -/

section

variable (hl : l.Everywhere P)

include hl

theorem AndExpr.createPartial_everywhere (hc : l.isConstant = false) :
    (AndExpr.createPartial l cr).Everywhere P := by
  unfold AndExpr.createPartial
  split
  · exact hl
  · next hones =>
    split
    · exact rules.constant _
    · next hzero => exact ⟨hl, rules.constant _, rules.mask (.inl rfl) hc hones hzero⟩

theorem AndExpr.create_everywhere (hr : r.Everywhere P) : (AndExpr.create l r).Everywhere P :=
  bcreateR_everywhere (fun _ => createPartial_everywhere hl)
    (fun _ => createPartial_everywhere hr)
    (fun hl' hr' => ⟨hl, hr, rules.bitwise rfl hl' hr'⟩)

theorem OrExpr.createPartial_everywhere (hc : l.isConstant = false) :
    (OrExpr.createPartial l cr).Everywhere P := by
  unfold OrExpr.createPartial
  split
  · exact rules.constant _
  · next hones =>
    split
    · exact hl
    · next hzero => exact ⟨hl, rules.constant _, rules.mask (.inr rfl) hc hones hzero⟩

theorem OrExpr.create_everywhere (hr : r.Everywhere P) : (OrExpr.create l r).Everywhere P :=
  bcreateR_everywhere (fun _ => createPartial_everywhere hl)
    (fun _ => createPartial_everywhere hr)
    (fun hl' hr' => ⟨hl, hr, rules.bitwise rfl hl' hr'⟩)

theorem EqExpr.createEq_everywhere (hr : r.Everywhere P) (h : P (.cmp .eq l r)) :
    (EqExpr.createEq l r).Everywhere P := by
  unfold EqExpr.createEq
  split
  · exact const_everywhere _ _
  · exact ⟨hl, hr, h⟩

end

omit rules in
theorem isFalse_of_not_isTrue (h : ¬ ConstantExpr.isTrue cl) (hw : cl.width = 1) :
    ConstantExpr.isFalse cl := by
  rw [ConstantExpr.isTrue, Bool.and_eq_true, not_and] at h
  rw [ConstantExpr.isFalse, Bool.and_eq_true]
  exact ⟨beq_iff_eq.mpr hw, by simpa using h (beq_iff_eq.mpr hw)⟩

theorem EqExpr.createEq_constant_everywhere (hr : r.Everywhere P) (hc : r.isConstant = false)
    (hcl : cl.width = 1 → ConstantExpr.isFalse cl) :
    (EqExpr.createEq (.constant cl) r).Everywhere P :=
  createEq_everywhere (rules.constant _) hr (rules.eqConstant hc hcl)

theorem EqExpr.createR_everywhere (h : l.isConstant = false → e.Everywhere P) :
    (EqExpr.createR e l cr).Everywhere P := by
  unfold EqExpr.createR
  split
  · exact rules.constant _
  · next hl => exact h (isConstant_eq_false hl)

theorem EqExpr.tryConstArrayOpt_everywhere (hcl : cl.width ≠ 1)
    (h : ∀ i, (eqIndex i).Everywhere P) (hr : (Expr.read root head e).Everywhere P) :
    (tryConstArrayOpt eqIndex cl root head e).Everywhere P := by
  unfold tryConstArrayOpt
  simp only
  split
  · exact createEq_constant_everywhere hr rfl (absurd · hcl)
  · split
    · next heq =>
      obtain ⟨_, _, hres⟩ := constArrayLoop_keeps (P := fun _ e => e.Everywhere P)
        (fun i _ _ hres => OrExpr.create_everywhere hres (h i))
        (const_everywhere 0 1) (Nat.zero_le _) heq
      exact hres
    · exact createEq_constant_everywhere hr rfl (absurd · hcl)

theorem EqExpr.createPartialR_everywhere (hr : r.Everywhere P) (hc : r.isConstant = false) :
    (EqExpr.createPartialR opt cl r).Everywhere P := by
  fun_induction EqExpr.createPartialR opt cl r with
  | case1 => exact hr
  | case2 => exact hr.2.1
  | case3 cl hw htrue => exact createEq_constant_everywhere hr hc (isFalse_of_not_isTrue htrue)
  | case4 cl left right hw htrue ihl ihr =>
    exact AndExpr.create_everywhere
      (EqExpr.createR_everywhere (ihl hr.1))
      (EqExpr.createR_everywhere (ihr hr.2.1))
  | case5 cl r hw htrue => exact createEq_constant_everywhere hr hc (isFalse_of_not_isTrue htrue)
  | case6 cl src w _ trunc _ ih | case8 cl src w _ trunc _ ih =>
    exact EqExpr.createR_everywhere (ih hr.1)
  | case7 | case9 => exact const_everywhere _ _
  | case10 cl c right _ ih => exact ih hr.2.1 (rules.sum hr.2.2 (.inl rfl))
  | case11 cl c right _ ih => exact ih hr.2.1 (rules.sum hr.2.2 (.inr rfl))
  | case12 cl hw root head index hopt ih =>
    exact tryConstArrayOpt_everywhere hw
      (fun i => EqExpr.createR_everywhere (ih i hr.2.1)) hr
  | case13 cl hw root head index => exact createEq_constant_everywhere hr hc (absurd · hw)
  | case14 cl r hw => exact createEq_constant_everywhere hr hc (absurd · hw)

theorem EqExpr.create_everywhere (hl : l.Everywhere P) (hr : r.Everywhere P) :
    (EqExpr.create opt l r).Everywhere P := by
  unfold EqExpr.create
  split
  · split
    · exact rules.constant _
    · next hr' => exact createPartialR_everywhere hr (isConstant_eq_false hr')
  · next hl' =>
    split
    · exact createPartialR_everywhere hl (isConstant_eq_false hl')
    · next hr' =>
      exact createEq_everywhere hl hr
        (rules.eq (isConstant_eq_false hl') (isConstant_eq_false hr'))

theorem Expr.createIsZero_everywhere (h : e.Everywhere P) :
    (Expr.createIsZero opt e).Everywhere P :=
  EqExpr.create_everywhere h (const_everywhere _ _)

/-! ## Sums

The partial constructors are only given an operand that is not constant, and
give back such a one: a constant is merged into the constants on the way down,
and at the bottom is something that is neither a constant nor a sum with one. -/

theorem XorExpr.createPartialR_everywhere (hr : r.Everywhere P) (hc : r.isConstant = false) :
    (XorExpr.createPartialR opt cl r).Everywhere P := by
  unfold XorExpr.createPartialR
  split
  · exact hr
  · split
    · exact EqExpr.createPartialR_everywhere hr hc
    · next hw => exact ⟨rules.constant _, hr, rules.linear rfl hc hw⟩

theorem XorExpr.create_everywhere (hl : l.Everywhere P) (hr : r.Everywhere P) :
    (XorExpr.create opt l r).Everywhere P :=
  bcreateR_everywhere (fun _ => createPartialR_everywhere hl)
    (fun _ => createPartialR_everywhere hr)
    (fun hl' hr' => ⟨hl, hr, rules.bitwise rfl hl' hr'⟩)

/-- A partial constructor that keeps its operand symbolic. -/
def KeepsSymbolic (P : Expr → Prop) (partialR : APInt → Expr → Expr) (cl : APInt)
    (r : Expr) : Prop :=
  r.Everywhere P → r.isConstant = false → (partialR cl r).Everywhere P ∧
    (cl.width ≠ 1 → (partialR cl r).isConstant = false)

omit rules in
theorem createL_keepsSymbolic (h : KeepsSymbolic P partialR cl r) :
    KeepsSymbolic P (createL k partialR) cl r := by
  intro hr hc
  cases r with
  | constant => simp [Expr.isConstant] at hc
  | _ => exact h hr hc

theorem sum_createPartialR_keepsSymbolic :
    (∀ cl r, KeepsSymbolic P (AddExpr.createPartialR opt) cl r) ∧
    (∀ cl r, KeepsSymbolic P (SubExpr.createPartialR opt) cl r) := by
  apply AddExpr.createPartialR.mutual_induct
  case case1 =>
    intro r cl hw hr hc
    rw [AddExpr.createPartialR.eq_def, if_pos hw]
    exact ⟨XorExpr.createPartialR_everywhere hr hc, absurd hw⟩
  case case2 =>
    intro r cl hw hz hr hc
    rw [AddExpr.createPartialR.eq_def, if_neg hw, if_pos hz]
    exact ⟨hr, fun _ => hc⟩
  case case3 =>
    intro cl hw hz c y ih hr _
    rw [AddExpr.createPartialR.eq_def, if_neg hw, if_neg hz]
    exact createL_keepsSymbolic (ih _) hr.2.1 (rules.sum hr.2.2 (.inl rfl))
  case case4 =>
    intro cl hw hz c y ih hr _
    rw [AddExpr.createPartialR.eq_def, if_neg hw, if_neg hz]
    exact createL_keepsSymbolic (ih _) hr.2.1 (rules.sum hr.2.2 (.inr rfl))
  case case5 =>
    intro r cl hw hz h₁ h2 hr hc
    simp only [AddExpr.createPartialR, if_neg hw, if_neg hz]
    exact ⟨⟨rules.constant _, hr, rules.linear rfl hc hw⟩, fun _ => rfl⟩
  case case6 =>
    intro r cl hw hr hc
    rw [SubExpr.createPartialR.eq_def, if_pos hw]
    exact ⟨XorExpr.createPartialR_everywhere hr hc, absurd hw⟩
  case case7 =>
    intro cl hw c y ih hr _
    rw [SubExpr.createPartialR.eq_def, if_neg hw]
    exact createL_keepsSymbolic (ih _) hr.2.1 (rules.sum hr.2.2 (.inl rfl))
  case case8 =>
    intro cl hw c y ih hr _
    rw [SubExpr.createPartialR.eq_def, if_neg hw]
    exact createL_keepsSymbolic (ih _) hr.2.1 (rules.sum hr.2.2 (.inr rfl))
  case case9 =>
    intro r cl hw h₁ h2 hr hc
    simp only [SubExpr.createPartialR, if_neg hw]
    exact ⟨⟨rules.constant _, hr, rules.linear rfl hc hw⟩, fun _ => rfl⟩

theorem AddExpr.createPartialR_everywhere (hr : r.Everywhere P)
    (hc : r.isConstant = false) : (AddExpr.createPartialR opt cl r).Everywhere P :=
  (sum_createPartialR_keepsSymbolic.1 cl r hr hc).1

theorem SubExpr.createPartialR_everywhere (hr : r.Everywhere P)
    (hc : r.isConstant = false) : (SubExpr.createPartialR opt cl r).Everywhere P :=
  (sum_createPartialR_keepsSymbolic.2 cl r hr hc).1

theorem AddExpr.create_symbolic_of_everywhere {n : Nat} (hl : l.Everywhere P)
    (hc : l.isConstant = false) (hw : w ≠ 1) :
    (AddExpr.create opt l (Expr.const n w)).isConstant = false := by
  cases l with
  | constant => simp [Expr.isConstant] at hc
  | _ =>
    rw [Expr.const, AddExpr.create]
    · exact (sum_createPartialR_keepsSymbolic.1 _ _ hl hc).2 hw
    · simp

theorem AddExpr.createL_everywhere (hr : r.Everywhere P) :
    (AddExpr.createL opt cl r).Everywhere P :=
  VitalSE.createL_everywhere (createPartialR_everywhere hr)

theorem SubExpr.createL_everywhere (hr : r.Everywhere P) :
    (SubExpr.createL opt cl r).Everywhere P :=
  VitalSE.createL_everywhere (createPartialR_everywhere hr)

theorem SubExpr.createR_everywhere (hl : l.Everywhere P) :
    (SubExpr.createR opt l cr).Everywhere P :=
  VitalSE.createR_everywhere (AddExpr.createPartialR_everywhere hl)

theorem sum_create_everywhere :
    (∀ l r : Expr, l.Everywhere P → r.Everywhere P → (AddExpr.create opt l r).Everywhere P) ∧
    (∀ l r : Expr, l.Everywhere P → r.Everywhere P → l.isConstant = false →
      r.isConstant = false → (AddExpr.createAdd opt l r).Everywhere P) ∧
    (∀ l r : Expr, l.Everywhere P → r.Everywhere P → (SubExpr.create opt l r).Everywhere P) ∧
    (∀ l r : Expr, l.Everywhere P → r.Everywhere P → l.isConstant = false →
      r.isConstant = false → (SubExpr.createSub opt l r).Everywhere P) := by
  apply AddExpr.create.mutual_induct
  case case1 =>
    intro r cl _ hr
    rw [AddExpr.create]
    exact AddExpr.createL_everywhere hr
  case case2 =>
    intro l cr hl hlr _
    simp only [AddExpr.create]
    exact AddExpr.createPartialR_everywhere hlr (isConstant_eq_false hl)
  case case3 =>
    intro l r hl hr ih hlr hrr
    simp only [AddExpr.create]
    exact ih hlr hrr (isConstant_eq_false hl) (isConstant_eq_false hr)
  case case4 =>
    intro l r hw hl hr hl' hr'
    rw [AddExpr.createAdd.eq_def, if_pos hw]
    exact ⟨hl, hr, rules.bitwise rfl hl' hr'⟩
  case case5 =>
    intro r k a hw ih hl hr _ _
    rw [AddExpr.createAdd.eq_def, if_neg hw]
    exact AddExpr.createL_everywhere (ih hl.2.1 hr)
  case case6 =>
    intro r k a hw ih hl hr _ _
    rw [AddExpr.createAdd.eq_def, if_neg hw]
    exact AddExpr.createL_everywhere (ih hr hl.2.1)
  case case7 | case8 =>
    intro l hw k b h₁ h2 ih hl hr _ _
    simp only [AddExpr.createAdd, if_neg hw]
    exact AddExpr.createL_everywhere (ih hl hr.2.1)
  case case9 =>
    intro l r hw h₁ h2 h3 h4 hl hr _ hc
    simp only [AddExpr.createAdd, if_neg hw]
    exact ⟨hl, hr, rules.linear rfl hc hw⟩
  case case10 =>
    intro r cl _ hr
    rw [SubExpr.create]
    exact SubExpr.createL_everywhere hr
  case case11 =>
    intro l cr hl hlr _
    simp only [SubExpr.create]
    exact AddExpr.createPartialR_everywhere hlr (isConstant_eq_false hl)
  case case12 =>
    intro l r hl hr ih hlr hrr
    simp only [SubExpr.create]
    exact ih hlr hrr (isConstant_eq_false hl) (isConstant_eq_false hr)
  case case13 =>
    intro l r hw hl hr hl' hr'
    rw [SubExpr.createSub.eq_def, if_pos hw]
    exact ⟨hl, hr, rules.bitwise rfl hl' hr'⟩
  case case14 =>
    intro r hw _ _ _ _
    rw [SubExpr.createSub.eq_def, if_neg hw, if_pos rfl]
    exact const_everywhere _ _
  case case15 =>
    intro r k a hw hne ih hl hr _ _
    rw [SubExpr.createSub.eq_def, if_neg hw, if_neg hne]
    exact AddExpr.createL_everywhere (ih hl.2.1 hr)
  case case16 =>
    intro r k a hw hne ih hl hr _ _
    rw [SubExpr.createSub.eq_def, if_neg hw, if_neg hne]
    exact SubExpr.createL_everywhere (ih hl.2.1 hr)
  case case17 | case18 =>
    intro l hw k b h₁ h2 hne ih hl hr _ _
    simp only [SubExpr.createSub, if_neg hw, if_neg hne]
    exact SubExpr.createR_everywhere (ih hl hr.2.1)
  case case19 =>
    intro l r hw hne h₁ h2 h3 h4 hl hr _ hc
    simp only [SubExpr.createSub, if_neg hw, if_neg hne]
    exact ⟨hl, hr, rules.linear rfl hc hw⟩

theorem AddExpr.create_everywhere (hl : l.Everywhere P) (hr : r.Everywhere P) :
    (AddExpr.create opt l r).Everywhere P :=
  sum_create_everywhere.1 l r hl hr

theorem SubExpr.create_everywhere (hl : l.Everywhere P) (hr : r.Everywhere P) :
    (SubExpr.create opt l r).Everywhere P :=
  sum_create_everywhere.2.2.1 l r hl hr

/-! ## The other constructors -/

theorem MulExpr.createPartialR_everywhere (hr : r.Everywhere P) (hc : r.isConstant = false) :
    (MulExpr.createPartialR cl r).Everywhere P := by
  unfold MulExpr.createPartialR
  split
  · exact AndExpr.createPartial_everywhere hr hc
  · next hw =>
    split
    · exact hr
    · split
      · exact rules.constant _
      · exact ⟨rules.constant _, hr, rules.linear rfl hc hw⟩

theorem MulExpr.create_everywhere (hl : l.Everywhere P) (hr : r.Everywhere P) :
    (MulExpr.create l r).Everywhere P := by
  refine bcreateR_everywhere (fun _ => createPartialR_everywhere hl)
    (fun _ => createPartialR_everywhere hr) fun hl' hr' => ?_
  split
  · exact ⟨hl, hr, rules.bitwise rfl hl' hr'⟩
  · next hw => exact ⟨hl, hr, rules.linear rfl hr' hw⟩

section

variable (hw : A → l.getWidth = r.getWidth)

include hw

section

variable (hl : l.Everywhere P) (hr : r.Everywhere P)

include hl hr

/-- Only operands of width one are treated in another way. -/
theorem quotient_everywhere (hk : k.isQuotient) (h : (create l r).Everywhere P) :
    (bcreate k (fun l r => if l.getWidth = 1 then create l r else .binary k l r)
      l r).Everywhere P := by
  apply bcreate_everywhere
  intro hc
  split
  · exact h
  · next h1 => exact ⟨hl, hr, rules.quotient hk hc hw h1⟩

theorem less_everywhere (hk : ck.isLess) (h : (create l r).Everywhere P) :
    (cmpcreate ck (fun l r => if l.getWidth = 1 then create l r else .cmp ck l r)
      l r).Everywhere P := by
  apply cmpcreate_everywhere
  intro hc
  split
  · exact h
  · next h1 => exact ⟨hl, hr, rules.less hk hc hw h1⟩

theorem divCreate_everywhere (hk : k.isQuotient) : (divCreate k l r).Everywhere P :=
  quotient_everywhere hw hl hr hk hl

theorem remCreate_everywhere (hk : k.isQuotient) : (remCreate k l r).Everywhere P :=
  quotient_everywhere hw hl hr hk (const_everywhere _ _)

theorem shiftCreate_everywhere (hk : k.isQuotient) : (shiftCreate k opt l r).Everywhere P :=
  quotient_everywhere hw hl hr hk (AndExpr.create_everywhere hl (Expr.createIsZero_everywhere hr))

theorem AShrExpr.create_everywhere : (AShrExpr.create l r).Everywhere P :=
  quotient_everywhere hw hl hr rfl hl

theorem UltExpr.create_everywhere : (UltExpr.create opt l r).Everywhere P :=
  less_everywhere hw hl hr rfl (AndExpr.create_everywhere (Expr.createIsZero_everywhere hl) hr)

theorem UleExpr.create_everywhere : (UleExpr.create opt l r).Everywhere P :=
  less_everywhere hw hl hr rfl (OrExpr.create_everywhere (Expr.createIsZero_everywhere hl) hr)

theorem SltExpr.create_everywhere : (SltExpr.create opt l r).Everywhere P :=
  less_everywhere hw hl hr rfl (AndExpr.create_everywhere hl (Expr.createIsZero_everywhere hr))

theorem SleExpr.create_everywhere : (SleExpr.create opt l r).Everywhere P :=
  less_everywhere hw hl hr rfl (OrExpr.create_everywhere hl (Expr.createIsZero_everywhere hr))

end

end

/-- The extraction a concatenation calls is on the inside of its left
operand. -/
theorem ConcatExpr.create_everywhere_of
    (h : ∀ e off w, e.concatSize ≤ l.innerSize → e.Everywhere P →
      (ExtractExpr.create e off w).Everywhere P)
    (hl : l.Everywhere P) (hr : r.Everywhere P) : (ConcatExpr.create l r).Everywhere P := by
  unfold ConcatExpr.create ConcatExpr.createWith
  split
  · exact rules.constant _
  · split
    · exact h _ _ _ le_rfl hl.1
    · exact ⟨hl, hr, rules.concat fun h => nomatch h⟩
  · next hne _ => exact ⟨hl, hr, rules.concat fun hc => isConstant_right_eq_false hne hc⟩

theorem ExtractExpr.create_everywhere_of_size (n : Nat) : ∀ (e : Expr) (off w : Nat),
    e.concatSize ≤ n → e.Everywhere P → (ExtractExpr.create e off w).Everywhere P := by
  induction n with
  | zero =>
    intro e off w hn
    have := e.concatSize_pos
    omega
  | succ n ih =>
    intro e off w hn h
    rw [create_eq]
    split
    · exact h
    next hw =>
    split
    · exact rules.constant _
    · next left right =>
      simp only [Expr.concatSize] at hn ⊢
      split
      · exact ih _ _ _ (by omega) h.1
      split
      · exact ih _ _ _ (by omega) h.2.1
      refine ConcatExpr.create_everywhere_of (fun e _ _ he => ih e _ _ ?_)
        (ih _ _ _ (by omega) h.1) (ih _ _ _ (by omega) h.2.1)
      exact he.trans ((innerSize_create _ _ _).trans (by omega))
    · next hc _ => exact ⟨h, rules.extract (isConstant_eq_false hc) hw⟩

theorem ExtractExpr.create_everywhere {off : Nat} (h : e.Everywhere P) :
    (ExtractExpr.create e off w).Everywhere P :=
  create_everywhere_of_size _ _ _ _ le_rfl h

theorem ConcatExpr.create_everywhere (hl : l.Everywhere P) (hr : r.Everywhere P) :
    (ConcatExpr.create l r).Everywhere P :=
  create_everywhere_of (fun _ _ _ _ => ExtractExpr.create_everywhere) hl hr

theorem NotExpr.create_everywhere (h : e.Everywhere P) : (NotExpr.create e).Everywhere P := by
  unfold NotExpr.create
  split
  · exact rules.constant _
  · next hc => exact ⟨h, rules.not (isConstant_eq_false hc)⟩

theorem ZExtExpr.create_everywhere (h : e.Everywhere P) : (ZExtExpr.create e w).Everywhere P := by
  unfold ZExtExpr.create
  split
  · exact h
  · split
    · exact ExtractExpr.create_everywhere h
    · split
      · exact rules.constant _
      · next hc => exact ⟨h, rules.zext (isConstant_eq_false hc) (by omega)⟩

theorem SExtExpr.create_everywhere (h : e.Everywhere P) : (SExtExpr.create e w).Everywhere P := by
  unfold SExtExpr.create
  split
  · exact h
  · split
    · exact ExtractExpr.create_everywhere h
    · split
      · exact rules.constant _
      · next hc => exact ⟨h, rules.sext (isConstant_eq_false hc) (by omega)⟩

theorem SelectExpr.create_everywhere (hw : A → t.getWidth = f.getWidth)
    (hc : c.Everywhere P) (ht : t.Everywhere P) (hf : f.Everywhere P) :
    (SelectExpr.create opt c t f).Everywhere P := by
  have hz : (Expr.createIsZero opt c).Everywhere P := Expr.createIsZero_everywhere hc
  unfold SelectExpr.create
  split
  · split
    · exact ht
    · exact hf
  next hsym =>
  have hc' := isConstant_eq_false hsym
  split
  · exact ht
  split
  · split
    · split
      · exact OrExpr.create_everywhere hc hf
      · exact AndExpr.create_everywhere hz hf
    · next hsymt =>
      split
      · split
        · exact OrExpr.create_everywhere hz ht
        · exact AndExpr.create_everywhere hc ht
      · next hsymf =>
        exact ⟨hc, ht, hf, rules.select hc' hw fun _ =>
          ⟨isConstant_eq_false hsymt, isConstant_eq_false hsymf⟩⟩
  · next h1 => exact ⟨hc, ht, hf, rules.select hc' hw (absurd · h1)⟩

omit rules in
/-- The walk over the updates gives a value of one of them, or a rest of
them. -/
theorem ReadExpr.walkUpdates_everywhere (opt : Bool) (index : Expr) :
    ∀ {head : UpdateNode}, head.Everywhere P →
      match walkUpdates opt index head with
      | .inl value => value.Everywhere P
      | .inr (un, _) => un.Everywhere P
  | .null, _ => by simp [walkUpdates, UpdateNode.Everywhere]
  | .node next i value, h => by
    rw [walkUpdates]
    cases EqExpr.create opt index i with
    | constant ce =>
      simp only
      by_cases ht : ConstantExpr.isTrue ce = true
      · rw [if_pos ht]
        exact h.2.2
      · rw [if_neg ht]
        exact walkUpdates_everywhere opt index h.1
    | _ => exact h

theorem ReadExpr.create_everywhere (hh : head.Everywhere P) (he : e.Everywhere P) :
    (ReadExpr.create opt root head e).Everywhere P := by
  have hwalk := walkUpdates_everywhere opt e hh
  unfold ReadExpr.create
  split
  · next heq =>
    rw [heq] at hwalk
    exact hwalk
  · next heq =>
    rw [heq] at hwalk
    split
    · split
      · exact rules.constant _
      · split
        · exact ⟨hwalk, he, rules.read _ _ _⟩
        · exact ⟨hh, he, rules.read _ _ _⟩
    · exact ⟨hh, he, rules.read _ _ _⟩

end

/-! ## All constructors -/

/-- What the constructor of a node's class asserts of the operands. -/
def Expr.Checked : Expr → Prop
  | .select c t f => c.getWidth = 1 ∧ t.getWidth = f.getWidth
  | .extract e off w => 0 < w ∧ off + w ≤ e.getWidth
  | .binary _ l r => l.getWidth = r.getWidth
  | .cmp _ l r => l.getWidth = r.getWidth
  | _ => True

/-- The operands are reduced, those in updates included. -/
def Expr.KidsEverywhere (P : Expr → Prop) (e : Expr) : Prop :=
  (∀ k ∈ e.kids, k.Everywhere P) ∧
    match e with
    | .read _ head _ => head.Everywhere P
    | _ => True

omit rules in
theorem Expr.Everywhere.kids (h : e.Everywhere P) : e.KidsEverywhere P := by
  cases e <;> simp_all [Expr.KidsEverywhere, kids, Expr.Everywhere]

theorem rebuild_everywhere (hchecked : A → e.Checked) (h : e.KidsEverywhere P) :
    (e.rebuild opt).Everywhere P := by
  obtain ⟨hk, hu⟩ := h
  cases e with
  | constant => exact rules.constant _
  | notOptimized e => exact ⟨hk e (by simp [kids]), rules.notOptimized _⟩
  | read root head i =>
    exact ReadExpr.create_everywhere hu (hk i (by simp [kids]))
  | select c t f =>
    exact SelectExpr.create_everywhere (fun h => (hchecked h).2) (hk c (by simp [kids]))
      (hk t (by simp [kids])) (hk f (by simp [kids]))
  | concat l r =>
    exact ConcatExpr.create_everywhere (hk l (by simp [kids]))
      (hk r (by simp [kids]))
  | extract e => exact ExtractExpr.create_everywhere (hk e (by simp [kids]))
  | zext e => exact ZExtExpr.create_everywhere (hk e (by simp [kids]))
  | sext e => exact SExtExpr.create_everywhere (hk e (by simp [kids]))
  | not e => exact NotExpr.create_everywhere (hk e (by simp [kids]))
  | binary k l r =>
    have hl := hk l (by simp [kids])
    have hr := hk r (by simp [kids])
    cases k with
    | add => exact AddExpr.create_everywhere hl hr
    | sub => exact SubExpr.create_everywhere hl hr
    | mul => exact MulExpr.create_everywhere hl hr
    | udiv | sdiv => exact divCreate_everywhere hchecked hl hr rfl
    | urem | srem => exact remCreate_everywhere hchecked hl hr rfl
    | and => exact AndExpr.create_everywhere hl hr
    | or => exact OrExpr.create_everywhere hl hr
    | xor => exact XorExpr.create_everywhere hl hr
    | shl | lshr => exact shiftCreate_everywhere hchecked hl hr rfl
    | ashr => exact AShrExpr.create_everywhere hchecked hl hr
  | cmp k l r =>
    have hl := hk l (by simp [kids])
    have hr := hk r (by simp [kids])
    cases k with
    | eq => exact EqExpr.create_everywhere hl hr
    | ne =>
      exact EqExpr.create_everywhere (const_everywhere _ _)
        (EqExpr.create_everywhere hl hr)
    | ult => exact UltExpr.create_everywhere hchecked hl hr
    | ule => exact UleExpr.create_everywhere hchecked hl hr
    | slt => exact SltExpr.create_everywhere hchecked hl hr
    | sle => exact SleExpr.create_everywhere hchecked hl hr
    | ugt => exact UltExpr.create_everywhere (fun h => (hchecked h).symm) hr hl
    | uge => exact UleExpr.create_everywhere (fun h => (hchecked h).symm) hr hl
    | sgt => exact SltExpr.create_everywhere (fun h => (hchecked h).symm) hr hl
    | sge => exact SleExpr.create_everywhere (fun h => (hchecked h).symm) hr hl

end

/-! ## Visitors

A visitor calls the constructors on operands it has changed, so nothing is known of the
assertions. -/

theorem Expr.mapKids_everywhere {f : Expr → Option Expr} {e' : Expr}
    (hf : ∀ k r, k.Everywhere P → f k = some r → r.Everywhere P)
    (h : e.KidsEverywhere P) (he : e.mapKids f = some e') : e'.KidsEverywhere P := by
  have hover := mapKids_eq_some.mp he
  refine ⟨fun k hk => ?_, ?_⟩
  · obtain ⟨k0, hk0, heq⟩ := hover.kids k hk
    exact hf _ _ (h.1 k0 hk0) heq
  · cases hover with
    | read => exact h.2
    | _ => trivial

namespace ExprVisitor

/-- A visitor that replaces expressions by constants only. -/
structure ReplacesByConstants (P : Expr → Prop) (v : ExprVisitor) : Prop where
  node : ∀ f e, v.visitNode f e = some .doChildren
  expr : ∀ {e d}, v.visitExpr e = .changeTo d → d.Everywhere P
  exprPost : ∀ {e d}, v.visitExprPost e = .changeTo d → d.Everywhere P

variable {v : ExprVisitor}

theorem post_everywhere (hv : v.ReplacesByConstants P) (he : e.Everywhere P) :
    (v.post e).Everywhere P := by
  unfold post
  split
  · exact he
  · split
    · next h => exact hv.exprPost h
    · exact he

theorem visit_everywhere [NodeRules P False] (hv : v.ReplacesByConstants P) :
    ∀ {n : Nat} {e r : Expr}, e.Everywhere P → visit opt v n e = some r → r.Everywhere P := by
  intro n
  induction n with
  | zero =>
    intro e r _ h
    simp [visit] at h
  | succ n ih =>
    intro e r he h
    rw [visit] at h
    split at h
    · exact Option.some.inj h ▸ he
    split at h
    · exact Option.some.inj h ▸ he
    · next hd => exact Option.some.inj h ▸ hv.expr hd
    simp only [hv.node, Option.bind_eq_bind, Option.bind_some, Option.bind_eq_some_iff] at h
    obtain ⟨e', he', h⟩ := h
    have hreb : (e'.rebuild opt).Everywhere P :=
      rebuild_everywhere False.elim (Expr.mapKids_everywhere (fun _ _ => ih) he.kids he')
    split at h
    · exact Option.some.inj h ▸ post_everywhere hv he
    split at h
    · obtain ⟨t, ht, h⟩ := Option.bind_eq_some_iff.mp h
      exact Option.some.inj h ▸ post_everywhere hv (ih hreb ht)
    · exact Option.some.inj h ▸ post_everywhere hv hreb

end ExprVisitor

theorem ConstraintManager.simplifyExpr_everywhere [rules : NodeRules P False] {n : Nat}
    {cs : List Expr} {e' : Expr} (he : e.Everywhere P)
    (h : simplifyExpr opt n cs e = .ok e') : e'.Everywhere P := by
  unfold simplifyExpr at h
  split at h
  · exact Except.ok.inj h ▸ he
  split at h
  · next r hr =>
    refine Except.ok.inj h ▸ ExprVisitor.visit_everywhere ⟨fun _ _ => rfl, ?_, ?_⟩
      he hr
    · intro e d hd
      simp [exprReplaceVisitor2] at hd
    · intro e d hd
      simp only [exprReplaceVisitor2] at hd
      split at hd
      · next d' hlook =>
        obtain rfl : d' = d := by simpa using hd
        obtain ⟨_, _, hsplit, -⟩ := List.lookup_eq_some_iff.mp hlook
        obtain ⟨c, -, heq⟩ : ∃ c ∈ cs, equality c = (e, d') :=
          List.mem_map.mp (by simp [hsplit])
        unfold equality at heq
        split at heq
        · exact (Prod.mk.inj heq).2 ▸ rules.constant _
        · exact (Prod.mk.inj heq).2 ▸ Expr.const_everywhere 1 1
      · simp at hd
  · simp at h

end VitalSE
