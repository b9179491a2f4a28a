import VitalSE.Expr.Assignment
import VitalSE.Proofs.EvaluatorSound

/-!
# Evaluation under an assignment

An assignment that leaves no byte free gives every expression with a value that
value, as a constant, unless the evaluation visits a constant that is protected from
being optimized. Such a node is not evaluated: its only operand is constant, so it
is rebuilt at once, and the hook that would open it is not called.
-/

namespace VitalSE

namespace Assignment

variable {opt : Bool} {a : Assignment}

/-- The bytes that the assignment gives, with zero for those it does not bind. -/
def valuation (a : Assignment) : Valuation := fun array i => (a.byte? array i).getD 0

theorem getInitialValue_eq (hfree : a.allowFreeValues = false) (array : Array) (i : Nat) :
    a.getInitialValue opt array i = .constant ⟨8, a.valuation array i⟩ := by
  unfold getInitialValue valuation
  cases a.byte? array i with
  | some value => rfl
  | none =>
    rw [hfree]
    rfl

/-- Beyond the end of a constant array a read has no value. -/
theorem read_beyond {σ : Valuation} {root : Array} {i : Nat} {v : BitVec 8}
    (hconst : root.isConstantArray = true) (hsize : root.size ≤ i) (hi : i < 2 ^ 32) :
    Simplifies σ (.read root .null (Expr.const i Array.domain)) (.constant ⟨8, v⟩) := by
  refine read_initial fun hj hb => ?_
  rw [Array.initialValue, if_pos hconst, ExprEvaluator.denotes_word hi hj] at hb
  rw [List.getElem?_eq_none (Array.length_constantValues hconst ▸ hsize)] at hb
  cases hb

theorem getInitialValue_initial (hfree : a.allowFreeValues = false) :
    ExprEvaluator.Initial a.valuation (a.getInitialValue opt) := by
  intro root index hindex hend
  rw [getInitialValue_eq hfree]
  cases hconst : root.isConstantArray with
  | true => exact read_beyond hconst (hend hconst) hindex
  | false => exact ExprEvaluator.read_byte hconst hindex rfl

/-- An expression evaluates to its value if none of the nodes that the evaluation visits
is a protected constant, and a protected constant stays what it is. All operands of a
node are visited; of the updates of a read, the positions up to the first update of the
byte that is read, and the value of that one. -/
theorem evaluate_eq_value (opt : Bool) (a : Assignment) (hfree : a.allowFreeValues = false)
    (e : Expr) (w : Nat) (x : BitVec w) (hx : Denotes a.valuation e x) :
    (e.Resolves a.valuation (fun _ _ => True) → a.evaluate opt e = some (.constant ⟨w, x⟩)) ∧
      ∀ c, e = .notOptimized (.constant c) → a.evaluate opt e = some e := by
  refine ⟨fun hres => ?_, fun c hc => ?_⟩
  · refine ExprEvaluator.evaluate_eq (getInitialValue_initial hfree) (fun root i _ => ?_) hres hx
    rw [getInitialValue_eq hfree]
    rfl
  · rw [hc]
    rfl

/-- Two symbolic bytes. -/
def bytePair : Array := ⟨0, "a", 2, [], by decide, .inl rfl⟩

/-- The byte whose position is the first byte, after the write of a protected constant
to position zero. -/
def readWritten : Expr :=
  .read bytePair (.node .null (Expr.const 0 32) (.notOptimized (Expr.const 5 8)))
    (.zext (.read bytePair .null (Expr.const 0 32)) 32)

/-- The second byte is read then, and the written value is not looked at. -/
theorem evaluate_readWritten :
    (⟨false, bind ∅ bytePair [1, 7]⟩ : Assignment).evaluate true readWritten =
      some (.constant ⟨8, 7⟩) := by
  refine (evaluate_eq_value true ⟨false, bind ∅ bytePair [1, 7]⟩ rfl readWritten 8 7
    ⟨by decide +kernel, by decide +kernel⟩).1 ⟨⟨trivial, fun _ _ => .inr trivial⟩, fun j hj =>
      ⟨trivial, fun i hi => ⟨fun hij => ?_, fun _ => .inr trivial⟩⟩⟩
  have hj1 : j = 1 := hj.unique ⟨by decide +kernel, by decide +kernel⟩
  have hi0 : i = 0 := hi.unique (denotes_const.mpr ⟨by decide, rfl⟩)
  rw [hi0, hj1] at hij
  exact absurd hij (by decide)

/-- A protected constant is not evaluated to a constant. -/
theorem evaluate_protected_constant :
    Denotes (valuation ⟨false, ∅⟩) (.notOptimized (Expr.const 5 8)) (5 : BitVec 8) ∧
      (⟨false, ∅⟩ : Assignment).evaluate true (.notOptimized (Expr.const 5 8)) =
        some (.notOptimized (Expr.const 5 8)) :=
  ⟨⟨by decide, rfl⟩, rfl⟩

end Assignment

end VitalSE
