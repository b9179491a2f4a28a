import VitalSE.Expr.Syntax

/-!
# The weight of an expression

A measure that every rewrite of the constructors respects. A sum or an equality
multiplies the weights of its operands, which makes reassociation neutral and
lets an equality move into a disjunction; a read pays in advance for the
disjunction over at most a hundred positions that an equality with it may turn
into.
-/

namespace VitalSE

mutual

def Expr.weight : Expr → Nat
  | .constant _ => 1
  | .notOptimized src => src.weight + 1
  | .read _ head index => 200 * index.weight + head.weight
  | .select c t f => 2 * c.weight + t.weight + f.weight + 1
  | .concat l r => l.weight + r.weight + 1
  | .extract e _ _ => 2 * e.weight
  | .zext e _ => 2 * e.weight
  | .sext e _ => 2 * e.weight
  | .not e => e.weight + 1
  | .binary k l r => match k with
    | .add | .sub | .xor => 2 * (l.weight * r.weight)
    | .mul => 3 * (l.weight * r.weight)
    | .and | .or | .udiv | .sdiv | .urem | .srem | .ashr =>
      l.weight + r.weight + 1
    | .shl | .lshr => l.weight + 2 * r.weight + 1
  | .cmp k l r => match k with
    | .eq => 2 * (l.weight * r.weight)
    | .ne => 4 * (l.weight * r.weight)
    | _ => 2 * l.weight + 2 * r.weight + 1

def UpdateNode.weight : UpdateNode → Nat
  | .null => 0
  | .node next index value => next.weight + index.weight + value.weight

end

theorem Expr.weight_pos : ∀ e : Expr, 0 < e.weight
  | .constant _ | .notOptimized _ | .select .. | .concat .. | .not _ => by
    simp only [weight]; omega
  | .read _ _ e | .extract e .. | .zext e _ | .sext e _ => by
    have := e.weight_pos
    simp only [weight]; omega
  | .binary k l r | .cmp k l r => by
    have := Nat.mul_pos l.weight_pos r.weight_pos
    cases k <;> simp only [weight] <;> omega

theorem Expr.weight_binary_ge (k : BinaryKind) (l r : Expr) :
    max l.weight r.weight ≤ (Expr.binary k l r).weight := by
  have hl := l.weight_pos
  have hr := r.weight_pos
  have h1 := Nat.le_mul_of_pos_right l.weight hr
  have h2 := Nat.le_mul_of_pos_left r.weight hl
  cases k <;> simp only [weight] <;> omega

end VitalSE
