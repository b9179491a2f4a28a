import VitalSE.Expr.Compare
import VitalSE.Proofs.Reduced

/-!
# The canonical form

The documentation of the expression classes asks for a canonical form: some
comparisons are not used, no operator has only constant operands, a constant is the
left operand of a binary operator, and the only boolean operation with a constant is
`false == e`. The constructors cannot keep all of it, since a quotient by a constant has
its constant on the right. What they keep is `CanonicalNode`, and they keep it whatever
the order in which they are called.
-/

namespace VitalSE

variable {c : APInt} {e l : Expr}

/-- The updates a read is taken through. -/
def Expr.head : Expr → UpdateNode
  | .read _ head _ => head
  | _ => .null

mutual

/-- What can be built by calls of the constructors. A call whose assertions do not hold
builds nothing. -/
inductive Built (opt : Bool) : Expr → Prop
  | constant (c : APInt) : Built opt (.constant c)
  | create {e : Expr} (kids : ∀ k ∈ e.kids, Built opt k) (head : BuiltUpdates opt e.head)
      (checked : e.Checked) : Built opt (e.rebuild opt)

/-- Updates whose positions and values were built so. -/
inductive BuiltUpdates (opt : Bool) : UpdateNode → Prop
  | null : BuiltUpdates opt .null
  | node {n : UpdateNode} {i v : Expr} (next : BuiltUpdates opt n) (index : Built opt i)
      (value : Built opt v) : BuiltUpdates opt (.node n i v)

end

/-- The documented form, at one node. Reads and concatenations are not boolean
operations. -/
structure DocumentedNode (e : Expr) : Prop where
  comparison : ∀ k, e.getKind = .cmp k → k.isCanonical
  symbolic : e.getKind ≠ .constant → e.getKind ≠ .read →
    ∃ k ∈ e.kids, k.isConstant = false
  left : ∀ l r, e.kids = [l, r] → e.getKind ≠ .concat → r.isConstant = false
  boolean : ∀ c, .constant c ∈ e.kids → c.width = 1 → e.getKind ≠ .read →
    e.getKind ≠ .concat → ConstantExpr.isFalse c ∧ ∃ r, e = .cmp .eq (.constant c) r

/-- The kinds whose constructor moves a constant to the left. -/
def Kind.isLinear : Kind → Bool
  | .binary k => k.isLinear
  | .cmp k => k = .eq
  | _ => false

/-- The form the constructors keep, at one node. -/
structure CanonicalNode (e : Expr) : Prop where
  comparison : ∀ k, e.getKind = .cmp k → k.isCanonical
  symbolic : e.getKind ≠ .constant → e.getKind ≠ .read → e.getKind ≠ .notOptimized →
    ∃ k ∈ e.kids, k.isConstant = false
  left : ∀ l r, e.kids = [l, r] → e.getKind.isLinear → r.isConstant = false
  boolean : ∀ c, .constant c ∈ e.kids → c.width = 1 → e.getKind ≠ .read →
    e.getKind ≠ .concat → e.getKind ≠ .notOptimized →
    ConstantExpr.isFalse c ∧ ∃ r, e = .cmp .eq (.constant c) r

/-! ## The nodes -/

/-- A node over one operand that is not constant. -/
theorem canonicalNode_of_operand {a : Expr} (hk : e.kids = [a])
    (ha : a.isConstant = false) : CanonicalNode e where
  comparison k h := by
    cases e with
    | cmp => cases hk
    | _ => cases h
  symbolic _ _ _ := ⟨a, by rw [hk]; exact List.mem_cons_self, ha⟩
  left l r h := by
    rw [hk] at h
    cases h
  boolean c h := by
    rw [hk, List.mem_singleton] at h
    rw [← h] at ha
    cases ha

/-- A node over two operands. -/
theorem canonicalNode_of_operands {r : Expr} (hk : e.kids = [l, r])
    (hcmp : ∀ k, e.getKind = .cmp k → k.isCanonical)
    (hsymbolic : l.isConstant → r.isConstant = false)
    (hleft : e.getKind.isLinear → r.isConstant = false)
    (hbool : ∀ c, l = .constant c ∨ r = .constant c → c.width = 1 → e.getKind ≠ .concat →
      ConstantExpr.isFalse c ∧ ∃ r, e = .cmp .eq (.constant c) r) : CanonicalNode e where
  comparison := hcmp
  symbolic _ _ _ := by
    rw [hk]
    cases hl : l.isConstant with
    | false => exact ⟨l, by simp, hl⟩
    | true => exact ⟨r, by simp, hsymbolic hl⟩
  left l' r' h hlinear := by
    rw [hk] at h
    cases h
    exact hleft hlinear
  boolean c h hw _ hconcat _ := by
    rw [hk] at h
    refine hbool c ?_ hw hconcat
    simpa [eq_comm] using h

/-- A constant of one bit is neutral for one of the connectives. -/
theorem isAllOnes_or_isZero_of_width_eq_one (h : c.width = 1) : c.isAllOnes ∨ c.isZero := by
  obtain ⟨w, x⟩ := c
  cases h
  revert x
  decide

theorem not_constant_of_isConstant_eq_false (he : e.isConstant = false)
    (h : e = .constant c) : False := by
  rw [h] at he
  cases he

theorem canonicalNode_constant (c : APInt) : CanonicalNode (.constant c) where
  comparison k h := by cases h
  symbolic h := absurd rfl h
  left l r h := by cases h
  boolean c h := by cases h

theorem canonicalNode_select {c t f : Expr} (hc : c.isConstant = false)
    (hw : t.getWidth = f.getWidth)
    (h1 : t.getWidth = 1 → t.isConstant = false ∧ f.isConstant = false) :
    CanonicalNode (.select c t f) where
  comparison k h := by cases h
  symbolic _ _ _ := ⟨c, List.mem_cons_self, hc⟩
  left l r h := by cases h
  boolean b h hb := by
    simp only [Expr.kids, List.mem_cons, List.not_mem_nil, or_false] at h
    obtain rfl | rfl | rfl := h
    · cases hc
    · cases (h1 hb).1
    · cases (h1 (hw.trans hb)).2

/-- No operand is a constant of one bit. -/
theorem not_bit_of_widths {r : Expr} (h1 : l.getWidth ≠ 1)
    (hw : l.getWidth = r.getWidth) (h : l = .constant c ∨ r = .constant c) : c.width ≠ 1 := by
  obtain rfl | rfl := h
  · exact h1
  · rw [hw] at h1
    exact h1

theorem canonicalNode_mask {k : BinaryKind} {cr : APInt} (hk : k = .and ∨ k = .or)
    (hl : l.isConstant = false) (hones : ¬ cr.isAllOnes) (hzero : ¬ cr.isZero) :
    CanonicalNode (.binary k l (.constant cr)) := by
  apply canonicalNode_of_operands rfl
  · intro k h
    cases h
  · intro h
    simp [hl] at h
  · intro hlinear
    obtain rfl | rfl := hk <;> cases hlinear
  · intro c h hw _
    obtain rfl | h := h
    · cases hl
    · cases h
      exact ((isAllOnes_or_isZero_of_width_eq_one hw).elim hones hzero).elim

instance : NodeRules CanonicalNode True where
  constant := canonicalNode_constant
  notOptimized _ := ⟨nofun, fun _ _ h => absurd rfl h, nofun, fun _ _ _ _ _ h => absurd rfl h⟩
  read _ _ _ := ⟨nofun, fun _ h => absurd rfl h, nofun, fun _ _ _ h => absurd rfl h⟩
  select hc hw h1 := canonicalNode_select hc (hw trivial) h1
  concat hsymbolic := canonicalNode_of_operands rfl (fun k h => by cases h) hsymbolic
    (fun h => by cases h) fun _ _ _ h => absurd rfl h
  extract he _ := canonicalNode_of_operand rfl he
  zext he _ := canonicalNode_of_operand rfl he
  sext he _ := canonicalNode_of_operand rfl he
  not he := canonicalNode_of_operand rfl he
  bitwise _ hl hr := canonicalNode_of_operands rfl (fun k h => by cases h) (fun _ => hr)
    (fun _ => hr) fun c h => (h.elim (not_constant_of_isConstant_eq_false hl)
      (not_constant_of_isConstant_eq_false hr)).elim
  mask := canonicalNode_mask
  linear _ hr h1 := canonicalNode_of_operands rfl (fun k h => by cases h) (fun _ => hr)
    (fun _ => hr) fun c h hc => (h.elim (fun h => h1 (by rw [h]; exact hc))
      (not_constant_of_isConstant_eq_false hr)).elim
  quotient {k _ _} hk hsymbolic hw h1 := canonicalNode_of_operands rfl
    (fun k h => by cases h) hsymbolic (fun h => by cases k <;> cases hk <;> cases h)
    fun c h hc => absurd hc (not_bit_of_widths h1 (hw trivial) h)
  eq hl hr := canonicalNode_of_operands rfl (fun k h => by cases h; rfl) (fun _ => hr)
    (fun _ => hr) fun c h => (h.elim (not_constant_of_isConstant_eq_false hl)
      (not_constant_of_isConstant_eq_false hr)).elim
  eqConstant hr hfalse := canonicalNode_of_operands rfl (fun k h => by cases h; rfl)
    (fun _ => hr) (fun _ => hr) fun c h hc _ => by
      obtain h | h := h
      · cases h
        exact ⟨hfalse hc, _, rfl⟩
      · exact (not_constant_of_isConstant_eq_false hr h).elim
  less {k _ _} hk hsymbolic hw h1 := canonicalNode_of_operands rfl
    (fun _ h => by cases h; cases k <;> cases hk <;> rfl) hsymbolic
    (fun h => by cases k <;> cases hk <;> cases h)
    fun c h hc => absurd hc (not_bit_of_widths h1 (hw trivial) h)
  sum h hk := h.left _ _ rfl (by obtain rfl | rfl := hk <;> rfl)

/-! ## What is built -/

mutual

theorem Built.everywhere {opt : Bool} {e : Expr} : Built opt e → e.Everywhere CanonicalNode
  | .constant c => canonicalNode_constant c
  | .create kids head checked => by
    apply rebuild_everywhere (fun _ => checked)
    refine ⟨fun k hk => (kids k hk).everywhere, ?_⟩
    have hhead := head.everywhere
    split
    · exact hhead
    · trivial

theorem BuiltUpdates.everywhere {opt : Bool} {n : UpdateNode} :
    BuiltUpdates opt n → n.Everywhere CanonicalNode
  | .null => trivial
  | .node next index value => ⟨next.everywhere, index.everywhere, value.everywhere⟩

end

/-- All that the constructors build is canonical at every node. -/
theorem everywhere_canonicalNode_of_built {opt : Bool} {e : Expr} (h : Built opt e) :
    e.Everywhere CanonicalNode := h.everywhere

/-- The first byte of an array. -/
def firstByte : Expr :=
  Expr.rebuild false (.read (.byte 0 "x") .null
    (Expr.const 0 32))

theorem built_firstByte : Built false firstByte := by
  apply Built.create
  · exact List.forall_mem_singleton.mpr (Built.constant _)
  · exact BuiltUpdates.null
  · trivial

/-- A byte divided by three. -/
def third : Expr := Expr.rebuild false (.binary .udiv firstByte (Expr.const 3 8))

theorem built_third : Built false third := by
  apply Built.create
  · intro k hk
    obtain rfl | rfl : k = firstByte ∨ k = Expr.const 3 8 := by simpa [Expr.kids] using hk
    · exact built_firstByte
    · exact Built.constant _
  · exact BuiltUpdates.null
  · rfl

theorem everywhere_canonicalNode_third : Built false third ∧ third.Everywhere CanonicalNode :=
  ⟨built_third, everywhere_canonicalNode_of_built built_third⟩

/-- A quotient by a constant has its constant on the right. -/
theorem not_everywhere_documentedNode_third :
    Built false third ∧ ¬ third.Everywhere DocumentedNode := by
  refine ⟨built_third, fun h => ?_⟩
  have hright := h.2.2.left firstByte (Expr.const 3 8) rfl (by decide)
  cases hright

end VitalSE
