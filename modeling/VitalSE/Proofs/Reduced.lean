import VitalSE.Proofs.Nodes

/-!
# The form the constructors leave an expression in

An expression is `Reduced` when no sum or difference of two constants occurs in
it. The constructors fold such a sum where they meet one, so all they build from
reduced operands is reduced, and so is what a replacing visitor makes of a
reduced expression. The memory model depends on it: it asserts that a symbolic
offset plus a constant is still symbolic, which `5 + 7` would violate.
It is a property of single nodes, so it goes through every constructor.
-/

namespace VitalSE

mutual

/-- No sum of two constants is left. -/
def Expr.Reduced : Expr → Prop
  | .constant _ => True
  | .notOptimized e | .extract e _ _ | .zext e _ | .sext e _ | .not e =>
    e.Reduced
  | .read _ head index => head.Reduced ∧ index.Reduced
  | .select c t f => c.Reduced ∧ t.Reduced ∧ f.Reduced
  | .concat l r | .cmp _ l r => l.Reduced ∧ r.Reduced
  | .binary k l r => l.Reduced ∧ r.Reduced ∧
      (k = .add ∨ k = .sub → l.isConstant → r.isConstant = false)

/-- Nor in the updates. -/
def UpdateNode.Reduced : UpdateNode → Prop
  | .null => True
  | .node next index value => next.Reduced ∧ index.Reduced ∧ value.Reduced

end

/-- The comparisons the constructors bring the others to. -/
def CmpKind.isCanonical : CmpKind → Bool
  | .eq | .ult | .ule | .slt | .sle => true
  | _ => false

/-- What `Reduced` asks of a node besides its operands. -/
def ReducedNode : Expr → Prop
  | .binary k l r => k = .add ∨ k = .sub → l.isConstant → r.isConstant = false
  | _ => True

mutual

theorem Expr.reduced_iff_everywhere : ∀ {e : Expr}, e.Reduced ↔ e.Everywhere ReducedNode
  | .constant _ => Iff.rfl
  | .read _ _ _ => by
    simp only [Expr.Reduced, Expr.Everywhere, ReducedNode, and_true,
      UpdateNode.reduced_iff_everywhere, Expr.reduced_iff_everywhere]
  | .notOptimized _ | .not _ | .extract _ _ _ | .zext _ _ | .sext _ _
  | .select _ _ _ | .concat _ _ | .cmp _ _ _ | .binary _ _ _ => by
    simp only [Expr.Reduced, Expr.Everywhere, ReducedNode, and_true,
      Expr.reduced_iff_everywhere]

theorem UpdateNode.reduced_iff_everywhere :
    ∀ {n : UpdateNode}, n.Reduced ↔ n.Everywhere ReducedNode
  | .null => Iff.rfl
  | .node _ _ _ => by
    simp only [UpdateNode.Reduced, UpdateNode.Everywhere,
      UpdateNode.reduced_iff_everywhere, Expr.reduced_iff_everywhere]

end

instance : NodeRules ReducedNode False where
  constant _ := trivial
  notOptimized _ := trivial
  read _ _ _ := trivial
  select _ _ _ := trivial
  concat _ := trivial
  extract _ _ := trivial
  zext _ _ := trivial
  sext _ _ := trivial
  not _ := trivial
  bitwise _ hl _ := fun _ h => by simp [hl] at h
  mask _ hl _ _ := fun _ h => by simp [hl] at h
  linear _ hr _ := fun _ _ => hr
  quotient _ hc _ _ := fun _ => hc
  eq _ _ := trivial
  eqConstant _ _ := trivial
  less _ _ _ _ := trivial
  sum h hk := h hk rfl

section

variable {l r e : Expr} {opt : Bool}

theorem SubExpr.create_reduced (hl : l.Reduced) (hr : r.Reduced) :
    (SubExpr.create opt l r).Reduced := by
  rw [Expr.reduced_iff_everywhere] at *
  exact SubExpr.create_everywhere hl hr

theorem ZExtExpr.create_reduced {w : Nat} (h : e.Reduced) :
    (ZExtExpr.create e w).Reduced := by
  rw [Expr.reduced_iff_everywhere] at *
  exact ZExtExpr.create_everywhere h

/-- A symbolic offset plus a constant is symbolic. -/
theorem AddExpr.create_symbolic {w n : Nat} (hl : l.Reduced)
    (hc : l.isConstant = false) (hw : w ≠ 1) :
    (AddExpr.create opt l (Expr.const n w)).isConstant = false :=
  AddExpr.create_symbolic_of_everywhere (Expr.reduced_iff_everywhere.mp hl) hc hw

end

end VitalSE
