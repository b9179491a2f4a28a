import VitalSE.Expr.Eval
import VitalSE.Expr.Create
import VitalSE.Expr.Weight
import Mathlib.Tactic.Ring
import Mathlib.Tactic.Linarith
import Mathlib.Data.Fin.VecNotation
import Mathlib.Algebra.BigOperators.Group.List.Basic

/-!
# What it means that one expression simplifies another

`Simplifies σ s r` is the contract of a rewrite from `s` to `r`: it keeps the
width, it keeps the value under every valuation that gives `s` one, and it does
not make the term heavier. The relation is reflexive, transitive and a
congruence, so a constructor that rewrites, recurses and rebuilds is checked
one step at a time, and the three facts travel together.

The weight is what bounds the visitors that rebuild terms until nothing
changes.
-/

namespace VitalSE

variable {k : BinaryKind} {w : Nat} {cr : APInt} {σ : Valuation}

/-! ## Constant folding computes the plain operators -/

theorem ConstantExpr.binary_mk {x y z : BitVec w} (h : k.apply x y = some z) :
    binary k ⟨w, x⟩ ⟨w, y⟩ = ⟨w, z⟩ := by
  cases k
  case udiv | sdiv | urem | srem =>
    simp only [BinaryKind.apply] at h
    split at h
    · simp at h
    · simp only [Option.some.injEq] at h
      subst h
      simp only [binary, APInt.udiv, APInt.sdiv, APInt.urem, APInt.srem,
        APInt.lift₂_mk]
  all_goals
    simp only [BinaryKind.apply, Option.some.injEq] at h
    subst h
    simp only [binary, APInt.add, APInt.sub, APInt.mul, APInt.and, APInt.or,
      APInt.xor, APInt.shl, APInt.lshr, APInt.ashr, APInt.lift₂_mk]

theorem ConstantExpr.cmp_mk (k : CmpKind) (x y : BitVec w) :
    cmp k ⟨w, x⟩ ⟨w, y⟩ = APInt.ofBool (k.apply x y) := by
  cases k <;> simp only [cmp, CmpKind.apply, APInt.eq, APInt.ult, APInt.ule,
    APInt.slt, APInt.sle, APInt.liftCmp_mk]
  cases h : x == y <;> simp [APInt.not, APInt.ofBool, bne, h]

/-- The expression `r` may stand for `s`: same width, same value, no more weight. -/
structure Simplifies (σ : Valuation) (s r : Expr) : Prop where
  typed : ∀ {w : Nat}, Typed s w → Typed r w
  value : ∀ {w : Nat} {x : BitVec w}, Denotes σ s x → Denotes σ r x
  weight : r.weight ≤ s.weight

namespace Simplifies

variable {s t u a a' b b' c c' e : Expr} {ck : CmpKind} {cl : APInt} {n : Nat}

theorem refl : Simplifies σ s s := ⟨id, id, le_rfl⟩

theorem trans (h : Simplifies σ s t) (h' : Simplifies σ t u) : Simplifies σ s u :=
  ⟨h'.typed ∘ h.typed, h'.value ∘ h.value, h'.weight.trans h.weight⟩

/-- A rewrite that is done under a condition. -/
theorem when {p : Prop} [Decidable p] (h : p → Simplifies σ s t) :
    Simplifies σ s (if p then t else s) := by
  split
  · next hp => exact h hp
  · exact refl

/-- A rewrite of a binary node, from its operands. -/
theorem of_binary
    (typed : ∀ {w : Nat}, Typed a w → Typed b w → Typed s w)
    (value : ∀ {w : Nat} {x y z : BitVec w}, Denotes σ a y →
      Denotes σ b z → k.apply y z = some x → Denotes σ s x)
    (weight : s.weight ≤ (Expr.binary k a b).weight) :
    Simplifies σ (.binary k a b) s where
  typed := by
    simp only [typed_binary]
    exact fun h => typed h.1 h.2
  value := by
    simp only [denotes_binary]
    rintro w x ⟨y, z, hy, hz, hx⟩
    exact value hy hz hx
  weight := weight

/-- A rewrite of a comparison, from its operands. -/
theorem of_cmp
    (typed : ∀ {u : Nat}, Typed a u → Typed b u → Typed s 1)
    (value : ∀ {u : Nat} {y z : BitVec u}, Denotes σ a y →
      Denotes σ b z → Denotes σ s (BitVec.ofBool (ck.apply y z)))
    (weight : s.weight ≤ (Expr.cmp ck a b).weight) :
    Simplifies σ (.cmp ck a b) s where
  typed := by
    simp only [typed_cmp]
    rintro w ⟨rfl, u, ha, hb⟩
    exact typed ha hb
  value := by
    intro w x h
    obtain rfl := (typed_cmp.mp h.typed).1
    obtain ⟨u, y, z, hy, hz, rfl⟩ := denotes_cmp.mp h
    exact value hy hz
  weight := weight

/-- A rewrite of an extract, from its operand. -/
theorem of_extract {off : Nat}
    (typed : ∀ {u : Nat}, 0 < n → off + n ≤ u → Typed a u → Typed s n)
    (value : ∀ {u : Nat} {y : BitVec u}, 0 < n → off + n ≤ u → Denotes σ a y →
      Denotes σ s (y.extractLsb' off n))
    (weight : s.weight ≤ (Expr.extract a off n).weight) :
    Simplifies σ (.extract a off n) s where
  typed := by
    simp only [typed_extract]
    rintro w ⟨rfl, hw, u, ha, hle⟩
    exact typed hw hle ha
  value := by
    intro w x h
    obtain rfl := (typed_extract.mp h.typed).1
    obtain ⟨hw, u, y, hle, hy, rfl⟩ := denotes_extract.mp h
    exact value hw hle hy
  weight := weight

/-! ## Congruence -/

section

variable (ha : Simplifies σ a a')

include ha

theorem binary (hb : Simplifies σ b b') :
    Simplifies σ (.binary k a b) (.binary k a' b') := by
  refine .of_binary (fun hl hr => typed_binary.mpr ⟨ha.typed hl, hb.typed hr⟩)
    (fun hy hz hx => denotes_binary.mpr ⟨_, _, ha.value hy, hb.value hz, hx⟩) ?_
  have := ha.weight
  have := hb.weight
  cases k <;> simp only [Expr.weight] <;> gcongr

theorem cmp (hb : Simplifies σ b b') : Simplifies σ (.cmp ck a b) (.cmp ck a' b') := by
  refine .of_cmp
    (fun hl hr => typed_cmp.mpr ⟨rfl, _, ha.typed hl, hb.typed hr⟩)
    (fun hy hz => denotes_cmp.mpr ⟨_, _, _, ha.value hy, hb.value hz, rfl⟩) ?_
  have := ha.weight
  have := hb.weight
  cases ck <;> simp only [Expr.weight] <;> gcongr

theorem concat (hb : Simplifies σ b b') :
    Simplifies σ (.concat a b) (.concat a' b') where
  typed := by
    simp only [typed_concat]
    rintro w ⟨u, v, hu, hv, rfl⟩
    exact ⟨u, v, ha.typed hu, hb.typed hv, rfl⟩
  value := by
    intro w x h
    obtain ⟨u, v, hu, hv, rfl⟩ := typed_concat.mp h.typed
    obtain ⟨y, z, hy, hz, hx⟩ := (denotes_concat hu hv).mp h
    exact (denotes_concat (ha.typed hu) (hb.typed hv)).mpr
      ⟨y, z, ha.value hy, hb.value hz, hx⟩
  weight := by
    have := ha.weight
    have := hb.weight
    simp only [Expr.weight]
    gcongr

theorem notOptimized : Simplifies σ (.notOptimized a) (.notOptimized a') where
  typed := by
    simp only [typed_notOptimized]
    exact ha.typed
  value := by
    simp only [denotes_notOptimized]
    exact ha.value
  weight := by
    have := ha.weight
    simp only [Expr.weight]
    gcongr

theorem read {root : Array} {head : UpdateNode} :
    Simplifies σ (.read root head a) (.read root head a') where
  typed := by
    simp only [typed_read]
    exact fun h => ⟨h.1, h.2.1, ha.typed h.2.2.1, h.2.2.2⟩
  value := by
    intro w x h
    obtain rfl := (typed_read.mp h.typed).1
    obtain ⟨hcount, us, j, hus, hj, hx⟩ := denotes_read.mp h
    exact denotes_read.mpr ⟨hcount, us, j, hus, ha.value hj, hx⟩
  weight := by
    have := ha.weight
    simp only [Expr.weight]
    gcongr

theorem select (hb : Simplifies σ b b') (hc : Simplifies σ c c') :
    Simplifies σ (.select a b c) (.select a' b' c') where
  typed := by
    simp only [typed_select]
    exact fun h => ⟨ha.typed h.1, hb.typed h.2.1, hc.typed h.2.2⟩
  value := by
    intro w x h
    obtain ⟨p, y, z, hp, hy, hz, hx⟩ := denotes_select.mp h
    exact denotes_select.mpr
      ⟨p, y, z, ha.value hp, hb.value hy, hc.value hz, hx⟩
  weight := by
    have := ha.weight
    have := hb.weight
    have := hc.weight
    simp only [Expr.weight]
    gcongr

theorem extract {off : Nat} : Simplifies σ (.extract a off n) (.extract a' off n) := by
  refine .of_extract
    (fun hw hle hu => typed_extract.mpr ⟨rfl, hw, _, ha.typed hu, hle⟩)
    (fun hw hle hy => denotes_extract.mpr ⟨hw, _, _, hle, ha.value hy, rfl⟩) ?_
  have := ha.weight
  simp only [Expr.weight]
  gcongr

theorem zext : Simplifies σ (.zext a n) (.zext a' n) where
  typed := by
    simp only [typed_zext]
    rintro w ⟨rfl, u, hu, hle⟩
    exact ⟨rfl, u, ha.typed hu, hle⟩
  value := by
    intro w x h
    obtain rfl := (typed_zext.mp h.typed).1
    obtain ⟨u, y, hle, hy, hx⟩ := denotes_zext.mp h
    exact denotes_zext.mpr ⟨u, y, hle, ha.value hy, hx⟩
  weight := by
    have := ha.weight
    simp only [Expr.weight]
    gcongr

theorem sext : Simplifies σ (.sext a n) (.sext a' n) where
  typed := (zext (n := n) ha).typed
  value := by
    intro w x h
    obtain rfl := (typed_sext.mp h.typed).1
    obtain ⟨u, y, hle, hy, hx⟩ := denotes_sext.mp h
    exact denotes_sext.mpr ⟨u, y, hle, ha.value hy, hx⟩
  weight := (zext (n := n) ha).weight

theorem not : Simplifies σ (.not a) (.not a') where
  typed := by
    simp only [typed_not]
    exact ha.typed
  value := by
    intro w x h
    obtain ⟨y, hy, hx⟩ := denotes_not.mp h
    exact denotes_not.mpr ⟨y, ha.value hy, hx⟩
  weight := by
    have := ha.weight
    simp only [Expr.weight]
    gcongr

end

/-! ## Folding and identities -/

theorem fold_binary :
    Simplifies σ (.binary k (.constant cl) (.constant cr))
      (.constant (ConstantExpr.binary k cl cr)) := by
  refine .of_binary ?_ ?_ ?_
  · intro w hl _
    obtain ⟨hw, rfl⟩ := typed_constant.mp hl
    exact typed_constant.mpr ⟨hw, by cases k <;> rfl⟩
  · intro w x y z hy hz hx
    obtain ⟨hw, rfl⟩ := denotes_constant.mp hy
    obtain ⟨_, rfl⟩ := denotes_constant.mp hz
    exact denotes_constant.mpr ⟨hw, ConstantExpr.binary_mk hx⟩
  · exact Expr.weight_pos _

theorem fold_cmp :
    Simplifies σ (.cmp ck (.constant cl) (.constant cr))
      (.constant (ConstantExpr.cmp ck cl cr)) := by
  refine .of_cmp ?_ ?_ ?_
  · intro u _ _
    exact typed_constant.mpr ⟨one_pos, by cases ck <;> rfl⟩
  · intro u y z hy hz
    obtain ⟨_, rfl⟩ := denotes_constant.mp hy
    obtain ⟨_, rfl⟩ := denotes_constant.mp hz
    exact denotes_constant.mpr ⟨one_pos, ConstantExpr.cmp_mk ..⟩
  · exact Expr.weight_pos _

/-- Swap the operands of a commutative operation. -/
theorem binary_comm (hk : k = .add ∨ k = .mul ∨ k = .and ∨ k = .or ∨ k = .xor) :
    Simplifies σ (.binary k a b) (.binary k b a) := by
  refine .of_binary (fun hl hr => typed_binary.mpr ⟨hr, hl⟩) ?_ ?_
  · intro w x y z hy hz hx
    refine denotes_binary.mpr ⟨z, y, hz, hy, ?_⟩
    rw [← hx]
    rcases hk with rfl | rfl | rfl | rfl | rfl <;>
      simp only [BinaryKind.apply, BitVec.add_comm, BitVec.mul_comm,
        BitVec.and_comm, BitVec.or_comm, BitVec.xor_comm]
  · rcases hk with rfl | rfl | rfl | rfl | rfl <;> simp only [Expr.weight] <;>
      first | rw [Nat.mul_comm b.weight] | omega

theorem eq_comm : Simplifies σ (.cmp .eq a b) (.cmp .eq b a) := by
  refine .of_cmp (fun hl hr => typed_cmp.mpr ⟨rfl, _, hr, hl⟩) ?_ ?_
  · intro u y z hy hz
    refine denotes_cmp.mpr ⟨u, z, y, hz, hy, ?_⟩
    simp only [CmpKind.apply, BEq.comm]
  · simp only [Expr.weight]
    rw [Nat.mul_comm b.weight]

/-- A constant that the operation passes over. -/
theorem left_identity (h : ∀ y, k.apply cl.bits y = some y) :
    Simplifies σ (.binary k (.constant cl) a) a := by
  refine .of_binary (fun _ hr => hr) ?_
    ((le_max_right _ _).trans (Expr.weight_binary_ge ..))
  intro w x y z hy hz hx
  obtain ⟨_, rfl⟩ := denotes_constant.mp hy
  rw [h z, Option.some.injEq] at hx
  exact hx ▸ hz

/-- A constant that the operation ends in. -/
theorem left_absorb (h : ∀ y, k.apply cl.bits y = some cl.bits) :
    Simplifies σ (.binary k (.constant cl) a) (.constant cl) := by
  refine .of_binary (fun hl _ => hl) ?_
    ((le_max_left _ _).trans (Expr.weight_binary_ge ..))
  intro w x y z hy hz hx
  obtain ⟨_, rfl⟩ := denotes_constant.mp hy
  rw [h z, Option.some.injEq] at hx
  exact hx ▸ hy

end Simplifies

/-! ## Sums

The reassociations of addition and subtraction move three operands around.
Two sums of the same operands simplify each other as soon as they are equal in
every ring of words; a `SumShape` is the form of such a sum. -/

/-- A sum of up to three operands. -/
inductive SumShape where
  | leaf (i : Fin 3)
  | add (s t : SumShape)
  | sub (s t : SumShape)

namespace SumShape

/-- The expression of that shape. -/
def expr (v : Fin 3 → Expr) : SumShape → Expr
  | leaf i => v i
  | add s t => .binary .add (s.expr v) (t.expr v)
  | sub s t => .binary .sub (s.expr v) (t.expr v)

/-- And its value. -/
def value {w : Nat} (x : Fin 3 → BitVec w) : SumShape → BitVec w
  | leaf i => x i
  | add s t => s.value x + t.value x
  | sub s t => s.value x - t.value x

/-- The operands, from left to right. -/
def leaves : SumShape → List (Fin 3)
  | leaf i => [i]
  | add s t | sub s t => s.leaves ++ t.leaves

variable {v : Fin 3 → Expr}

theorem typed_expr (s : SumShape) :
    Typed (s.expr v) w ↔ ∀ i ∈ s.leaves, Typed (v i) w := by
  induction s with
  | leaf i => simp [expr, leaves]
  | add s t hs ht | sub s t hs ht =>
    simp only [expr, leaves, typed_binary, List.mem_append, hs, ht]
    grind

theorem denotes_expr (s : SumShape) {x : Fin 3 → BitVec w}
    (h : ∀ i ∈ s.leaves, Denotes σ (v i) (x i)) :
    Denotes σ (s.expr v) (s.value x) := by
  induction s with
  | leaf i => exact h i (by simp [leaves])
  | add s t hs ht | sub s t hs ht =>
    simp only [leaves, List.mem_append] at h
    exact denotes_binary.mpr ⟨_, _, hs fun i hi => h i (.inl hi),
      ht fun i hi => h i (.inr hi), rfl⟩

/-- The word an operand evaluates to. -/
def operand (σ : Valuation) (v : Fin 3 → Expr) (w : Nat) (i : Fin 3) :
    BitVec w :=
  (((v i).eval σ).map fun a => a.bits.setWidth w).getD 0

theorem of_denotes_expr (s : SumShape) {x : BitVec w}
    (h : Denotes σ (s.expr v) x) :
    x = s.value (operand σ v w) ∧
      ∀ i ∈ s.leaves, Denotes σ (v i) (operand σ v w i) := by
  induction s generalizing x with
  | leaf i =>
    have hx : x = operand σ v w i := by
      simp only [expr] at h
      simp [operand, h.eval_eq]
    refine ⟨hx, fun j hj => ?_⟩
    obtain rfl : j = i := by simpa [leaves] using hj
    exact hx ▸ h
  | add s t hs ht | sub s t hs ht =>
    obtain ⟨y, z, hy, hz, hx⟩ := denotes_binary.mp h
    obtain ⟨rfl, hs⟩ := hs hy
    obtain ⟨rfl, ht⟩ := ht hz
    refine ⟨by simpa [BinaryKind.apply, value] using hx.symm, fun i hi => ?_⟩
    exact (List.mem_append.mp hi).elim (hs i) (ht i)

theorem weight_expr (s : SumShape) :
    2 * (s.expr v).weight = (s.leaves.map fun i => 2 * (v i).weight).prod := by
  induction s with
  | leaf i => simp [expr, leaves]
  | add s t hs ht | sub s t hs ht =>
    simp only [expr, leaves, Expr.weight, List.map_append, List.prod_append,
      ← hs, ← ht]
    ring

theorem simplifies (s t : SumShape) (v : Fin 3 → Expr)
    (hl : s.leaves.Perm t.leaves := by decide)
    (h : ∀ (w : Nat) (x : Fin 3 → BitVec w), s.value x = t.value x := by
      intros; simp only [SumShape.value]; ring) :
    Simplifies σ (s.expr v) (t.expr v) where
  typed := by
    simp only [typed_expr]
    exact fun hs i hi => hs i (hl.mem_iff.mpr hi)
  value := by
    intro w x hx
    obtain ⟨rfl, hs⟩ := of_denotes_expr s hx
    rw [h]
    exact denotes_expr t fun i hi => hs i (hl.mem_iff.mpr hi)
  weight := by
    have hp := (hl.map fun i => 2 * (v i).weight).prod_eq
    rw [← weight_expr, ← weight_expr] at hp
    omega

end SumShape

end VitalSE
