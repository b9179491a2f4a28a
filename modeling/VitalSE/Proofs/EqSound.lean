import VitalSE.Proofs.Simplifies

/-!
# Connectives and equality are sound

Each constructor simplifies the plain node of its class. The proof of a
constructor has the cases of its code, and each case cites the one identity of
words that justifies the rewrite. This file has the shapes that the binary
constructors share, conjunction and disjunction, and equality, which the other
constructors call at width one.
-/

namespace VitalSE

open VitalSE.Expr (const weight)
open BitVec (ofBool)

variable {σ : Valuation} {opt : Bool} {a b c l r t f e : Expr} {k : BinaryKind}
  {cl cr : APInt} {n w : Nat} {partialL : Expr → APInt → Expr}
  {partialR : APInt → Expr → Expr} {eqIndex : Nat → Expr}

/-! ## The shared shapes -/

theorem createL_simplifies (hR : Simplifies σ (.binary k (.constant cl) r) (partialR cl r)) :
    Simplifies σ (.binary k (.constant cl) r) (createL k partialR cl r) := by
  unfold createL
  split
  · exact .fold_binary
  · exact hR

theorem createR_simplifies (hL : Simplifies σ (.binary k l (.constant cr)) (partialL l cr)) :
    Simplifies σ (.binary k l (.constant cr)) (createR k partialL l cr) := by
  unfold createR
  split
  · exact .fold_binary
  · exact hL

theorem bcreateR_simplifies {create : Expr → Expr → Expr}
    (hk : k = .add ∨ k = .mul ∨ k = .and ∨ k = .or ∨ k = .xor)
    (hL : ∀ cr, partialL l cr = partialR cr l)
    (hR : ∀ {cl e}, Simplifies σ (.binary k (.constant cl) e) (partialR cl e))
    (hC : Simplifies σ (.binary k l r) (create l r)) :
    Simplifies σ (.binary k l r) (bcreateR k partialL partialR create l r) := by
  unfold bcreateR
  split
  · exact createL_simplifies hR
  · split
    · exact hL _ ▸ (Simplifies.binary_comm hk).trans hR
    · exact hC

theorem bcreate_simplifies {create : Expr → Expr → Expr}
    (hC : Simplifies σ (.binary k l r) (create l r)) :
    Simplifies σ (.binary k l r) (bcreate k create l r) := by
  unfold bcreate
  split
  · exact .fold_binary
  · exact hC

theorem cmpcreate_simplifies {k : CmpKind} {create : Expr → Expr → Expr}
    (hC : Simplifies σ (.cmp k l r) (create l r)) :
    Simplifies σ (.cmp k l r) (cmpcreate k create l r) := by
  unfold cmpcreate
  split
  · exact .fold_cmp
  · exact hC

/-! ## Conjunction and disjunction -/

theorem AndExpr.createPartialR_simplifies :
    Simplifies σ (.binary .and (.constant cl) r) (createPartialR cl r) := by
  unfold createPartialR createPartial
  split
  · next h => exact .left_identity fun y => by simp [BinaryKind.apply, eq_of_beq h]
  · split
    · next h => exact .left_absorb fun y => by simp [BinaryKind.apply, eq_of_beq h]
    · exact .binary_comm (by simp)

theorem AndExpr.create_simplifies : Simplifies σ (.binary .and l r) (AndExpr.create l r) :=
  bcreateR_simplifies (by simp) (fun _ => rfl) createPartialR_simplifies .refl

theorem OrExpr.createPartialR_simplifies :
    Simplifies σ (.binary .or (.constant cl) r) (createPartialR cl r) := by
  unfold createPartialR createPartial
  split
  · next h => exact .left_absorb fun y => by simp [BinaryKind.apply, eq_of_beq h]
  · split
    · next h => exact .left_identity fun y => by simp [BinaryKind.apply, eq_of_beq h]
    · exact .binary_comm (by simp)

theorem OrExpr.create_simplifies : Simplifies σ (.binary .or l r) (OrExpr.create l r) :=
  bcreateR_simplifies (by simp) (fun _ => rfl) createPartialR_simplifies .refl

/-! ## Equality -/

theorem ConstantExpr.isTrue_iff : isTrue cl = true ↔ cl = ⟨1, 1⟩ := by
  constructor
  · intro h
    simp only [isTrue, Bool.and_eq_true, beq_iff_eq] at h
    obtain ⟨x, rfl⟩ := APInt.exists_bits h.1
    have hx := h.2
    revert x
    decide
  · rintro rfl
    decide

theorem ConstantExpr.isFalse_iff : isFalse cl = true ↔ cl = ⟨1, 0⟩ := by
  constructor
  · intro h
    simp only [isFalse, Bool.and_eq_true, beq_iff_eq] at h
    obtain ⟨x, rfl⟩ := APInt.exists_bits h.1
    have hx := h.2
    revert x
    decide
  · rintro rfl
    decide

theorem ConstantExpr.eq_false_of_not_isTrue (hw : cl.width = 1)
    (h : ¬isTrue cl = true) : cl = ⟨1, 0⟩ := by
  obtain ⟨x, rfl⟩ := APInt.exists_bits hw
  revert x
  decide

theorem denotes_const {x : BitVec w} : Denotes σ (const n w) x ↔ 0 < w ∧ x = BitVec.ofNat w n := by
  simp only [const, APInt.ofNat, denotes_constant, APInt.mk.injEq, heq_eq_eq, true_and, eq_comm]

theorem typed_const {v : Nat} : Typed (const n w) v ↔ 0 < v ∧ w = v := by
  simp [const, APInt.ofNat]

theorem weight_const : (const n w).weight = 1 := rfl

namespace EqExpr

variable {n u : Nat}

theorem self_simplifies : Simplifies σ (.cmp .eq a a) (const 1 1) := by
  refine .of_cmp (fun _ _ => typed_const.mpr ⟨one_pos, rfl⟩) ?_
    (Expr.weight_pos _)
  intro u y z hy hz
  obtain rfl := hy.unique hz
  exact denotes_const.mpr ⟨one_pos, by simp [CmpKind.apply]⟩

theorem createEq_simplifies : Simplifies σ (.cmp .eq l r) (createEq l r) :=
  .when fun h => h ▸ self_simplifies

theorem createR_simplifies {partialL : Expr}
    (h : Simplifies σ (.cmp .eq (.constant cr) l) partialL) :
    Simplifies σ (.cmp .eq l (.constant cr)) (createR partialL l cr) := by
  unfold createR
  split
  · exact .fold_cmp
  · exact Simplifies.eq_comm.trans h

/-- A rewrite of an equality against a constant, from the other operand. -/
theorem of_const {y : BitVec u} {s : Expr} (typed : 0 < u → Typed r u → Typed s 1)
    (value : ∀ {z : BitVec u}, 0 < u → Denotes σ r z →
      Denotes σ s (ofBool (y == z))) (weight : s.weight ≤ 2 * r.weight) :
    Simplifies σ (.cmp .eq (.constant ⟨u, y⟩) r) s := by
  refine .of_cmp ?_ ?_ (by simpa [Expr.weight] using weight)
  · intro v hl hr
    obtain ⟨hv, rfl⟩ := typed_constant.mp hl
    exact typed hv hr
  · intro v x z hx hz
    obtain ⟨hv, hx⟩ := denotes_constant.mp hx
    obtain rfl : u = v := congrArg APInt.width hx
    obtain rfl := APInt.mk_inj.mp hx
    exact value hv hz

theorem true_simplifies : Simplifies σ (.cmp .eq (.constant ⟨1, 1⟩) r) r := by
  refine of_const (fun _ hr => hr) ?_ (by omega)
  intro z _ hz
  have : ∀ z : BitVec 1, ofBool (1#1 == z) = z := by decide
  exact (this z).symm ▸ hz

theorem not_not_simplifies : Simplifies σ (.cmp .eq (.constant ⟨1, 0⟩)
      (.cmp .eq (.constant ⟨1, 0⟩) r)) r := by
  refine of_const ?_ ?_ ?_
  · intro _ h
    obtain ⟨_, u, h0, hr⟩ := typed_cmp.mp h
    obtain ⟨_, rfl⟩ := typed_constant.mp h0
    exact hr
  · intro z _ hz
    obtain ⟨u, x, y, hx, hy, rfl⟩ := denotes_cmp.mp hz
    obtain ⟨_, hx⟩ := denotes_constant.mp hx
    obtain rfl : 1 = u := congrArg APInt.width hx
    obtain rfl := APInt.mk_inj.mp hx
    have : ∀ y : BitVec 1,
        ofBool (0#1 == ofBool (0#1 == y)) = y := by decide
    exact (this y).symm ▸ hy
  · simp only [weight]
    omega

theorem denotes_zero {y : BitVec 1} (h : Denotes σ e y) : Denotes σ (const 0 e.getWidth) 0#1 := by
  rw [h.typed.getWidth_eq]
  exact denotes_const.mpr ⟨one_pos, rfl⟩

theorem not_or_simplifies : Simplifies σ (.cmp .eq (.constant ⟨1, 0⟩) (.binary .or l r))
      (.binary .and (.cmp .eq l (const 0 l.getWidth)) (.cmp .eq r (const 0 r.getWidth))) := by
  refine of_const ?_ ?_ ?_
  · intro _ h
    obtain ⟨hl, hr⟩ := typed_binary.mp h
    simp only [typed_binary, typed_cmp, typed_const]
    exact ⟨⟨trivial, 1, hl, one_pos, hl.getWidth_eq⟩, ⟨trivial, 1, hr, one_pos, hr.getWidth_eq⟩⟩
  · intro z _ hz
    obtain ⟨x, y, hx, hy, hz⟩ := denotes_binary.mp hz
    simp only [BinaryKind.apply, Option.some.injEq] at hz
    subst hz
    have : ∀ x y : BitVec 1, ofBool (x == 0#1) &&&
        ofBool (y == 0#1) = ofBool (0#1 == x ||| y) := by decide
    exact denotes_binary.mpr ⟨_, _, denotes_cmp.mpr ⟨1, x, 0#1, hx, denotes_zero hx, rfl⟩,
      denotes_cmp.mpr ⟨1, y, 0#1, hy, denotes_zero hy, rfl⟩,
      congrArg some (this x y)⟩
  · simp only [weight, weight_const]
    omega

/-! Both extensions of `e` are undone by truncation, so comparing one with a
constant is comparing `e` with the truncated constant, or false when the
constant is not an extension. -/

section

variable {u : Nat} {y : BitVec u} {s : Expr} {g : BitVec e.getWidth → BitVec u}
  (hg : e.getWidth ≤ u → ∀ x, (g x).setWidth e.getWidth = x)
  (hd : ∀ {σ z}, Denotes σ s z → ∃ x, e.getWidth ≤ u ∧ Denotes σ e x ∧ z = g x)

include hg hd

theorem ext_simplifies (ht : Typed s u → Typed e e.getWidth)
    (hw : e.weight ≤ s.weight) (hy : y = g (y.setWidth e.getWidth)) :
    Simplifies σ (.cmp .eq (.constant ⟨u, y⟩) s)
      (.cmp .eq e (.constant ⟨e.getWidth, y.setWidth e.getWidth⟩)) := by
  refine of_const ?_ ?_ ?_
  · intro _ hs
    exact typed_cmp.mpr ⟨rfl, _, ht hs, typed_constant.mpr ⟨(ht hs).pos, rfl⟩⟩
  · intro z _ hz
    obtain ⟨x, hle, hx, rfl⟩ := hd hz
    refine denotes_cmp.mpr ⟨_, x, _, hx,
      denotes_constant.mpr ⟨hx.typed.pos, rfl⟩, congrArg ofBool ?_⟩
    simp only [CmpKind.apply, Bool.beq_eq_decide_eq, decide_eq_decide]
    constructor
    · rintro rfl
      exact (hg hle x).symm
    · rintro rfl
      exact hy
  · simp only [weight]
    omega

theorem ext_false_simplifies (hy : y ≠ g (y.setWidth e.getWidth)) :
    Simplifies σ (.cmp .eq (.constant ⟨u, y⟩) s) (const 0 1) := by
  refine of_const (fun _ _ => typed_const.mpr ⟨one_pos, rfl⟩) ?_ ?_
  · intro z _ hz
    obtain ⟨x, hle, hx, rfl⟩ := hd hz
    refine denotes_const.mpr ⟨one_pos, ?_⟩
    rw [beq_eq_false_iff_ne.mpr]
    · rfl
    · rintro rfl
      rw [hg hle] at hy
      exact hy rfl
  · have := s.weight_pos
    simp only [weight_const]
    omega

end

theorem typed_of_zext (h : Typed (.zext e n) u) : Typed e e.getWidth := by
  obtain ⟨_, v, hv, _⟩ := typed_zext.mp h
  exact hv.getWidth_eq.symm ▸ hv

theorem denotes_of_sext {z : BitVec u} (h : Denotes σ (.sext e n) z) : ∃ x : BitVec e.getWidth,
      e.getWidth ≤ u ∧ Denotes σ e x ∧ z = x.signExtend u := by
  obtain rfl := (typed_sext.mp h.typed).1
  obtain ⟨v, x, hle, hx, rfl⟩ := denotes_sext.mp h
  obtain rfl := hx.typed.getWidth_eq
  exact ⟨x, hle, hx, rfl⟩

theorem denotes_of_zext {z : BitVec u} (h : Denotes σ (.zext e n) z) : ∃ x : BitVec e.getWidth,
      e.getWidth ≤ u ∧ Denotes σ e x ∧ z = x.setWidth u := by
  obtain rfl := (typed_zext.mp h.typed).1
  obtain ⟨v, x, hle, hx, rfl⟩ := denotes_zext.mp h
  obtain rfl := hx.typed.getWidth_eq
  exact ⟨x, hle, hx, rfl⟩

/-- `c0 = c1 + b` is `c0 - c1 = b`. -/
theorem add_simplifies {c : APInt} :
    Simplifies σ (.cmp .eq (.constant cl) (.binary .add (.constant c) r))
      (.cmp .eq (.constant (cl.sub c)) r) := by
  obtain ⟨u, y⟩ := cl
  refine of_const ?_ ?_ ?_
  · intro hu h
    exact typed_cmp.mpr ⟨rfl, u, typed_constant.mpr ⟨hu, rfl⟩, (typed_binary.mp h).2⟩
  · intro z hu h
    obtain ⟨x, b, hx, hb, hz⟩ := denotes_binary.mp h
    obtain ⟨_, rfl⟩ := denotes_constant.mp hx
    simp only [BinaryKind.apply, Option.some.injEq] at hz
    subst hz
    refine denotes_cmp.mpr ⟨u, y - x, b, denotes_constant.mpr
      ⟨hu, APInt.sub_mk ..⟩, hb, congrArg ofBool ?_⟩
    simp only [CmpKind.apply]
    grind
  · simp only [weight]
    omega

/-- `c0 = c1 - b` is `c1 - c0 = b`. -/
theorem sub_simplifies {c : APInt} :
    Simplifies σ (.cmp .eq (.constant cl) (.binary .sub (.constant c) r))
      (.cmp .eq (.constant (c.sub cl)) r) := by
  obtain ⟨u, y⟩ := cl
  refine of_const ?_ ?_ ?_
  · intro hu h
    obtain ⟨hc, hr⟩ := typed_binary.mp h
    exact typed_cmp.mpr ⟨rfl, u, typed_constant.mpr ⟨hu, (typed_constant.mp hc).2⟩, hr⟩
  · intro z hu h
    obtain ⟨x, b, hx, hb, hz⟩ := denotes_binary.mp h
    obtain ⟨_, rfl⟩ := denotes_constant.mp hx
    simp only [BinaryKind.apply, Option.some.injEq] at hz
    subst hz
    refine denotes_cmp.mpr ⟨u, x - y, b, denotes_constant.mpr
      ⟨hu, APInt.sub_mk ..⟩, hb, congrArg ofBool ?_⟩
    simp only [CmpKind.apply]
    grind
  · simp only [weight]
    omega

/-! ### A read of a constant array

The disjunction over the positions that hold the constant. The loop is
followed with the disjunction built so far: after the positions below `i` it is
true exactly when the index is one of them that matched. -/

section

variable {res res' : Expr} {i m : Nat} {vs : List (BitVec 8)}

/-- What each disjunct keeps, the loop keeps, over at most a hundred of them. -/
theorem constArrayLoop_keeps {P : Nat → Expr → Prop}
    (hor : ∀ i m res, P m res → P (m + 1) (OrExpr.create res (eqIndex i)))
    (hres : P m res) (hm : m ≤ 100)
    (h : constArrayLoop eqIndex cl vs i m res = some res') : ∃ n ≤ 100, P n res' := by
  induction vs generalizing i m res with
  | nil =>
    simp only [constArrayLoop, Option.some.injEq] at h
    exact ⟨m, hm, h ▸ hres⟩
  | cons v vs ih =>
    rw [constArrayLoop] at h
    split at h
    · split at h
      · cases h
      · exact ih (hor i m res hres) (by omega) h
    · exact ih hres hm h

/-- Position `j` is among the values that start at position `i`, and holds the
constant. -/
def hits (cl : APInt) (j : Nat) (vs : List (BitVec 8)) (i : Nat) : Bool :=
  decide (i ≤ j) && (vs[j - i]?).any fun v => decide (cl = ⟨8, v⟩)

theorem hits_cons {j : Nat} {v : BitVec 8} : hits cl j (v :: vs) i =
    if j = i then decide (cl = ⟨8, v⟩) else hits cl j vs (i + 1) := by
  unfold hits
  rcases Nat.lt_trichotomy j i with h | rfl | h
  · rw [if_neg (by omega), decide_eq_false (by omega),
      decide_eq_false (by omega)]
    rfl
  · simp
  · obtain ⟨d, hd⟩ : ∃ d, j - i = d + 1 := ⟨j - i - 1, by omega⟩
    rw [if_neg (by omega), decide_eq_true (by omega), decide_eq_true (by omega),
      hd, show j - (i + 1) = d by omega, List.getElem?_cons_succ]

theorem hits_of_lt {j : Nat} (h : j < i) : hits cl j vs i = false := by
  simp [hits, h]

theorem beq_ofNat {j : BitVec 32} (h : i < 2 ^ 32) :
    (j == BitVec.ofNat 32 i) = decide (j.toNat = i) := by
  rw [Bool.eq_iff_iff, beq_iff_eq, decide_eq_true_eq, ← BitVec.toNat_inj,
    BitVec.toNat_ofNat, Nat.mod_eq_of_lt h]

theorem constArrayLoop_value {j : BitVec 32} {b : Bool}
    (heq : ∀ i, Denotes σ (eqIndex i) (ofBool (j == BitVec.ofNat 32 i)))
    (hlen : i + vs.length ≤ 2 ^ 32) (hres : Denotes σ res (ofBool b))
    (h : constArrayLoop eqIndex cl vs i m res = some res') :
    Denotes σ res' (ofBool (b || hits cl j.toNat vs i)) := by
  induction vs generalizing i m res b with
  | nil =>
    simp only [constArrayLoop, Option.some.injEq] at h
    subst h
    simpa [hits] using hres
  | cons v vs ih =>
    rw [List.length_cons] at hlen
    rw [constArrayLoop] at h
    rw [hits_cons]
    split at h
    · next hv =>
      split at h
      · cases h
      · have hor : Denotes σ (OrExpr.create res (eqIndex i))
            (ofBool (b || decide (j.toNat = i))) := by
          have hi := heq i
          rw [beq_ofNat (by omega)] at hi
          refine OrExpr.create_simplifies.value
            (denotes_binary.mpr ⟨_, _, hres, hi, ?_⟩)
          simp [BinaryKind.apply, BitVec.ofBool_or_ofBool]
        have := ih (by omega) hor h
        rw [Bool.or_assoc] at this
        by_cases hj : j.toNat = i <;> simpa [hj, hv] using this
    · next hv =>
      have := ih (by omega) hres h
      by_cases hj : j.toNat = i
      · rw [hits_of_lt (by omega)] at this
        simpa [hj, hv] using this
      · simpa [hj] using this

end

/-- Only the empty list of updates is counted as empty. -/
theorem eq_null_of_getSize {root : Array} {head : UpdateNode}
    (hsym : root.isSymbolicArray = false) (hcount : root.counts head)
    (hsize : head.getSize = 0) : head = .null := by
  have hlt : head.length < 2 ^ 32 := by simpa [Array.counts, hsym] using hcount
  rw [head.getSize_eq, ← BitVec.toNat_inj, BitVec.toNat_ofNat, Nat.mod_eq_of_lt hlt] at hsize
  cases head with
  | null => rfl
  | node => cases hsize

theorem read_simplifies {root : Array} {head : UpdateNode} {index : Expr}
    (heq : ∀ i, Simplifies σ (.cmp .eq index (const i index.getWidth)) (eqIndex i)) :
    Simplifies σ (.cmp .eq (.constant cl) (.read root head index))
      (tryConstArrayOpt eqIndex cl root head index) := by
  unfold tryConstArrayOpt
  split
  · exact createEq_simplifies
  · next hroot =>
    split
    · next res hres =>
      simp only [Bool.or_eq_true, Bool.not_eq_true, not_or, bne_iff_ne, ne_eq,
        Decidable.not_not] at hroot
      obtain ⟨hsym, hsize⟩ := hroot
      refine .of_cmp ?_ ?_ ?_
      · intro u _ hr
        have hi := (typed_read.mp hr).2.2.1
        have hor : ∀ i (m : Nat) res, Typed res 1 → Typed (OrExpr.create res (eqIndex i)) 1 := by
          intro i _ res h
          refine (OrExpr.create_simplifies (σ := .zero)).typed
            (typed_binary.mpr ⟨h, (heq i).typed ?_⟩)
          exact typed_cmp.mpr ⟨rfl, 32, hi, typed_const.mpr ⟨by decide, hi.getWidth_eq⟩⟩
        obtain ⟨_, _, ht⟩ := constArrayLoop_keeps hor
          (typed_const.mpr ⟨one_pos, rfl⟩) (Nat.zero_le _) hres
        exact ht
      · intro u y z hy hz
        obtain rfl := (typed_read.mp hz.typed).1
        obtain ⟨_, rfl⟩ := denotes_constant.mp hy
        obtain ⟨hcount, us, j, hus, hj, hz⟩ := denotes_read.mp hz
        obtain rfl := eq_null_of_getSize hsym hcount hsize
        obtain rfl := denotes_null.mp hus
        have hw := hj.typed.getWidth_eq
        have heq' : ∀ i, Denotes σ (eqIndex i)
            (ofBool (j == BitVec.ofNat 32 i)) := by
          intro i
          refine (heq i).value (denotes_cmp.mpr ⟨32, j, _, hj, ?_, rfl⟩)
          rw [hw]
          exact denotes_const.mpr ⟨by decide, rfl⟩
        have hlen : 0 + root.constantValues.length ≤ 2 ^ 32 := by
          have := root.size_lt
          rcases root.values_size with h | h
          · simp [h]
          · omega
        have hval := constArrayLoop_value heq' hlen (b := false)
          (denotes_const.mpr ⟨one_pos, rfl⟩) hres
        simp only [readUpdates, Array.initialValue, Array.isConstantArray,
          hsym, Bool.not_false, if_true] at hz
        simp only [hits, Nat.zero_le, decide_true, Nat.sub_zero, hz,
          Option.any_some, Bool.false_or, Bool.true_and] at hval
        simpa [CmpKind.apply, Bool.beq_eq_decide_eq] using hval
      · have hor : ∀ i m res, weight res ≤ 1 + m * (2 * index.weight + 1) →
            (OrExpr.create res (eqIndex i)).weight ≤ 1 + (m + 1) * (2 * index.weight + 1) := by
          intro i m res h
          have hi := (heq i).weight
          have hor := (OrExpr.create_simplifies (σ := .zero) (l := res) (r := eqIndex i)).weight
          simp only [weight, weight_const] at hi hor
          rw [Nat.succ_mul]
          omega
        obtain ⟨n, hn, hval⟩ := constArrayLoop_keeps hor (by simp [weight_const])
          (Nat.zero_le _) hres
        have := Nat.mul_le_mul_right (2 * index.weight + 1) hn
        have := index.weight_pos
        simp only [weight]
        omega
    · exact createEq_simplifies

/-! ### The constructor -/

theorem createPartialR_simplifies :
    Simplifies σ (.cmp .eq (.constant cl) r) (createPartialR opt cl r) := by
  fun_induction createPartialR opt cl r with
  | case1 r cl _ htrue =>
    rw [ConstantExpr.isTrue_iff.mp htrue]
    exact true_simplifies
  | case2 cl hw hfalse ce right hce =>
    rw [ConstantExpr.eq_false_of_not_isTrue hw hfalse, ConstantExpr.isFalse_iff.mp hce]
    exact not_not_simplifies
  | case3 => exact createEq_simplifies
  | case4 cl hw hfalse left right ihl ihr =>
    rw [ConstantExpr.eq_false_of_not_isTrue hw hfalse]
    refine not_or_simplifies.trans (.trans (.binary ?_ ?_) AndExpr.create_simplifies)
    · exact createR_simplifies ihl
    · exact createR_simplifies ihr
  | case5 => exact createEq_simplifies
  | case6 cl hw src n trunc htrunc ih =>
    obtain ⟨u, y⟩ := cl
    refine Simplifies.trans ?_ (createR_simplifies ih)
    exact ext_simplifies (fun hle x => APInt.setWidth_signExtend x hle)
      denotes_of_sext typed_of_zext (by simp only [weight]; omega)
      (APInt.mk_inj.mp htrunc)
  | case7 cl hw src n trunc htrunc =>
    obtain ⟨u, y⟩ := cl
    exact ext_false_simplifies (fun hle x => APInt.setWidth_signExtend x hle)
      denotes_of_sext (fun h => htrunc (APInt.mk_inj.mpr h))
  | case8 cl hw src n trunc htrunc ih =>
    obtain ⟨u, y⟩ := cl
    refine Simplifies.trans ?_ (createR_simplifies ih)
    exact ext_simplifies (fun hle x => APInt.setWidth_zeroExtend x hle)
      denotes_of_zext typed_of_zext (by simp only [weight]; omega)
      (APInt.mk_inj.mp htrunc)
  | case9 cl hw src n trunc htrunc =>
    obtain ⟨u, y⟩ := cl
    exact ext_false_simplifies (fun hle x => APInt.setWidth_zeroExtend x hle)
      denotes_of_zext (fun h => htrunc (APInt.mk_inj.mpr h))
  | case10 cl hw c right ih => exact add_simplifies.trans ih
  | case11 cl hw c right ih => exact sub_simplifies.trans ih
  | case12 cl hw root head index hopt ih =>
    exact read_simplifies fun i => createR_simplifies (ih i)
  | case13 => exact createEq_simplifies
  | case14 => exact createEq_simplifies

theorem create_simplifies : Simplifies σ (.cmp .eq l r) (create opt l r) := by
  unfold create
  split
  · split
    · exact .fold_cmp
    · exact createPartialR_simplifies
  · split
    · exact Simplifies.eq_comm.trans createPartialR_simplifies
    · exact createEq_simplifies

end EqExpr

theorem Expr.createIsZero_simplifies : Simplifies σ (.cmp .eq e (const 0 e.getWidth))
      (Expr.createIsZero opt e) :=
  EqExpr.create_simplifies

end VitalSE
