import VitalSE.Expr.Syntax

/-!
# What an expression means

A `Valuation` gives every symbolic array its bytes. `eval` is strict and
partial: it has no value as soon as some subterm divides by zero or reads a
constant array out of its bounds, whether or not the rest of the term needs
that subterm. A statement about expressions without a zero divisor and without an
out-of-bounds constant read is one about expressions with a value.

`Denotes σ e x` is the form the proofs use: `e` is well formed, has the width of
`x`, and evaluates to `x` under `σ`. There is one equivalence for each node
class, and a rewrite rule is checked by taking the left side apart with them and
putting the right side together, which leaves an identity of bit-vectors.
-/

namespace VitalSE

/-- The contents of every array, position by position. -/
abbrev Valuation := Array → Nat → BitVec 8

variable {σ : Valuation} {cs ds : List Expr} {c e : Expr}

def Valuation.zero : Valuation := fun _ _ => 0

namespace BinaryKind

/-- The plain operator on words of one width; a zero divisor has no result. -/
def apply {w : Nat} (k : BinaryKind) (x y : BitVec w) : Option (BitVec w) :=
  match k with
  | add => some (x + y)
  | sub => some (x - y)
  | mul => some (x * y)
  | udiv => if y = 0 then none else some (x / y)
  | sdiv => if y = 0 then none else some (x.sdiv y)
  | urem => if y = 0 then none else some (x % y)
  | srem => if y = 0 then none else some (x.srem y)
  | and => some (x &&& y)
  | or => some (x ||| y)
  | xor => some (x ^^^ y)
  | shl => some (x <<< y.toNat)
  | lshr => some (x >>> y.toNat)
  | ashr => some (x.sshiftRight y.toNat)

end BinaryKind

namespace CmpKind

def apply {w : Nat} (k : CmpKind) (x y : BitVec w) : Bool :=
  match k with
  | eq => x == y
  | ne => x != y
  | ult => x.ult y
  | ule => x.ule y
  | ugt => y.ult x
  | uge => y.ule x
  | slt => x.slt y
  | sle => x.sle y
  | sgt => y.slt x
  | sge => y.sle x

end CmpKind

/-- The byte of an array before any update: stored for a constant array, where
it may be missing, and given by the valuation for a symbolic one. -/
def Array.initialValue (σ : Valuation) (root : Array) (i : Nat) :
    Option (BitVec 8) :=
  if root.isConstantArray then root.constantValues[i]? else some (σ root i)

/-- Look an index up in evaluated updates, newest first. -/
def readUpdates (σ : Valuation) (root : Array) (i : BitVec 32) :
    List (BitVec 32 × BitVec 8) → Option (BitVec 8)
  | [] => root.initialValue σ i.toNat
  | (j, v) :: rest => if i = j then some v else readUpdates σ root i rest

mutual

def Expr.eval (σ : Valuation) : Expr → Option APInt
  | .constant value => some value
  | .notOptimized src => src.eval σ
  | .read root head index => do
    let us ← head.eval σ
    let i ← index.eval σ
    let v ← readUpdates σ root (i.bits.setWidth 32) us
    return ⟨8, v⟩
  | .select cond trueExpr falseExpr => do
    let c ← cond.eval σ
    let t ← trueExpr.eval σ
    let f ← falseExpr.eval σ
    return if c.isZero then f else t
  | .concat left right => do
    let l ← left.eval σ
    let r ← right.eval σ
    return l.concat r
  | .extract expr offset width => do
    let e ← expr.eval σ
    return e.extract offset width
  | .zext src width => do
    let e ← src.eval σ
    return e.zextOrTrunc width
  | .sext src width => do
    let e ← src.eval σ
    return e.sextOrTrunc width
  | .not expr => do
    let e ← expr.eval σ
    return e.not
  | .binary kind left right => do
    let l ← left.eval σ
    let r ← right.eval σ
    APInt.lift₂? (fun _ => kind.apply) l r
  | .cmp kind left right => do
    let l ← left.eval σ
    let r ← right.eval σ
    return APInt.liftCmp (fun _ => kind.apply) l r

/-- All the writes of an update list, newest first. -/
def UpdateNode.eval (σ : Valuation) :
    UpdateNode → Option (List (BitVec 32 × BitVec 8))
  | .null => some []
  | .node next index value => do
    let us ← next.eval σ
    let i ← index.eval σ
    let v ← value.eval σ
    return (i.bits.setWidth 32, v.bits.setWidth 8) :: us

end

/-- A value has the width of its expression. -/
theorem Expr.eval_width : ∀ {e : Expr} {w : Nat} {v : APInt},
    Typed e w → e.eval σ = some v → v.width = w
  | .constant _, _, _, ht, h => by
    simp only [typed_constant] at ht
    simp only [Expr.eval, Option.some.injEq] at h
    rw [← h]; exact ht.2
  | .notOptimized src, _, _, ht, h => by
    simp only [typed_notOptimized] at ht
    simp only [Expr.eval] at h
    exact eval_width ht h
  | .read .., _, _, ht, h => by
    simp only [typed_read] at ht
    simp only [Expr.eval, Option.bind_eq_bind, Option.bind_eq_some_iff,
      Option.pure_def, Option.some.injEq] at h
    obtain ⟨_, _, _, _, _, _, rfl⟩ := h
    exact ht.1.symm
  | .select c t f, _, _, ht, h => by
    simp only [typed_select] at ht
    simp only [Expr.eval, Option.bind_eq_bind, Option.bind_eq_some_iff,
      Option.pure_def, Option.some.injEq] at h
    obtain ⟨c', _, t', ht', f', hf', rfl⟩ := h
    split
    · exact eval_width ht.2.2 hf'
    · exact eval_width ht.2.1 ht'
  | .concat l r, _, _, ht, h => by
    simp only [typed_concat] at ht
    obtain ⟨u, v, hl, hr, rfl⟩ := ht
    simp only [Expr.eval, Option.bind_eq_bind, Option.bind_eq_some_iff,
      Option.pure_def, Option.some.injEq] at h
    obtain ⟨l', hl', r', hr', rfl⟩ := h
    simp only [APInt.concat, eval_width hl hl', eval_width hr hr']
  | .extract .., _, _, ht, h
  | .zext .., _, _, ht, h
  | .sext .., _, _, ht, h => by
    obtain ⟨_, rfl⟩ := ht
    obtain ⟨_, _, h⟩ := Option.bind_eq_some_iff.mp h
    cases h
    rfl
  | .not e, _, _, ht, h => by
    simp only [typed_not] at ht
    obtain ⟨e', he', h⟩ := Option.bind_eq_some_iff.mp h
    cases h
    exact (eval_width ht he' : e'.width = _)
  | .binary k l r, _, _, ht, h => by
    simp only [typed_binary] at ht
    simp only [Expr.eval, Option.bind_eq_bind, Option.bind_eq_some_iff,
      APInt.lift₂?, Option.map_eq_some_iff] at h
    obtain ⟨l', hl', r', hr', _, _, rfl⟩ := h
    exact (eval_width ht.1 hl' : l'.width = _)
  | .cmp k l r, _, _, ht, h => by
    simp only [typed_cmp] at ht
    simp only [Expr.eval, Option.bind_eq_bind, Option.bind_eq_some_iff,
      Option.pure_def, Option.some.injEq] at h
    obtain ⟨_, _, _, _, rfl⟩ := h
    exact ht.1.symm

/-! ## Denotation -/

/-- `e` is well formed and its value under `σ` is the word `x`. -/
structure Denotes (σ : Valuation) (e : Expr) {w : Nat} (x : BitVec w) :
    Prop where
  typed : Typed e w
  eval_eq : e.eval σ = some ⟨w, x⟩

/-- The updates are well formed and write `us`, newest first. -/
structure UpdateNode.Denotes (σ : Valuation) (n : UpdateNode)
    (us : List (BitVec 32 × BitVec 8)) : Prop where
  typed : n.wellTyped
  eval_eq : n.eval σ = some us

theorem Typed.denotes {w : Nat} {v : APInt} (ht : Typed e w) (h : e.eval σ = some v) :
    ∃ x : BitVec w, v = ⟨w, x⟩ ∧ Denotes σ e x := by
  obtain ⟨x, rfl⟩ := APInt.exists_bits (Expr.eval_width ht h)
  exact ⟨x, rfl, ht, h⟩

/-- An operand of which something is computed has a value. -/
theorem Typed.bind_eq_some {w : Nat} {α : Type} {f : APInt → Option α} {b : α}
    (ht : Typed e w) (h : (e.eval σ >>= f) = some b) :
    ∃ x : BitVec w, Denotes σ e x ∧ f ⟨w, x⟩ = some b := by
  obtain ⟨v, hv, hb⟩ := Option.bind_eq_some_iff.mp h
  obtain ⟨x, rfl, hx⟩ := ht.denotes hv
  exact ⟨x, hx, hb⟩

theorem Denotes.unique {w : Nat} {x y : BitVec w} (hx : Denotes σ e x)
    (hy : Denotes σ e y) : x = y := by
  have h := hx.eval_eq.symm.trans hy.eval_eq
  simpa using h

section

variable {σ : Valuation} {w n off : Nat} {x : BitVec w} {a c l r t f i v e : Expr}
  {k : BinaryKind} {ck : CmpKind} {root : Array} {head : UpdateNode}
  {us : List (BitVec 32 × BitVec 8)}

theorem denotes_constant {value : APInt} :
    Denotes σ (.constant value) x ↔ 0 < w ∧ value = ⟨w, x⟩ := by
  constructor
  · rintro ⟨ht, h⟩
    simp only [typed_constant] at ht
    simp only [Expr.eval, Option.some.injEq] at h
    exact ⟨ht.1, h⟩
  · rintro ⟨hw, rfl⟩
    exact ⟨by simp [hw], rfl⟩

theorem denotes_notOptimized :
    Denotes σ (.notOptimized e) x ↔ Denotes σ e x := by
  constructor <;> rintro ⟨ht, h⟩ <;>
    exact ⟨by simpa using ht, by simpa [Expr.eval] using h⟩

theorem denotes_null : UpdateNode.null.Denotes σ us ↔ us = [] := by
  constructor
  · rintro ⟨_, h⟩
    simp only [UpdateNode.eval, Option.some.injEq] at h
    exact h.symm
  · rintro rfl
    exact ⟨rfl, rfl⟩

theorem denotes_node : (UpdateNode.node head i v).Denotes σ us ↔
    ∃ us' j b, head.Denotes σ us' ∧ Denotes σ i j ∧ Denotes σ v b ∧
      us = (j, b) :: us' := by
  constructor
  · rintro ⟨ht, h⟩
    simp only [wellTyped_node] at ht
    simp only [UpdateNode.eval, Option.bind_eq_bind, Option.bind_eq_some_iff,
      Option.pure_def, Option.some.injEq] at h
    obtain ⟨us', hus, j', hj', b', hb', rfl⟩ := h
    obtain ⟨j, rfl, hj⟩ := ht.2.1.denotes hj'
    obtain ⟨b, rfl, hb⟩ := ht.2.2.denotes hb'
    exact ⟨us', j, b, ⟨ht.1, hus⟩, hj, hb, by simp⟩
  · rintro ⟨us', j, b, hn, hj, hb, rfl⟩
    refine ⟨by simp [hn.typed, hj.typed, hb.typed], ?_⟩
    simp [UpdateNode.eval, hn.eval_eq, hj.eval_eq, hb.eval_eq]

theorem denotes_read {x : BitVec 8} : Denotes σ (.read root head i) x ↔
    root.counts head ∧ ∃ us j, head.Denotes σ us ∧ Denotes σ i j ∧
      readUpdates σ root j us = some x := by
  constructor
  · rintro ⟨ht, h⟩
    simp only [typed_read] at ht
    simp only [Expr.eval, Option.bind_eq_bind, Option.bind_eq_some_iff,
      Option.pure_def, Option.some.injEq] at h
    obtain ⟨us, hus, j', hj', b, hb, hx⟩ := h
    obtain ⟨j, rfl, hj⟩ := ht.2.2.1.denotes hj'
    obtain rfl : b = x := by simpa using hx
    exact ⟨ht.2.2.2, us, j, ⟨ht.2.1, hus⟩, hj, by simpa using hb⟩
  · rintro ⟨hcount, us, j, hn, hj, hx⟩
    refine ⟨by simp [hn.typed, hj.typed, hcount], ?_⟩
    simp [Expr.eval, hn.eval_eq, hj.eval_eq, hx]

theorem denotes_select : Denotes σ (.select c t f) x ↔
    ∃ (b : BitVec 1) (y z : BitVec w), Denotes σ c b ∧ Denotes σ t y ∧
      Denotes σ f z ∧ x = if b = 0 then z else y := by
  constructor
  · rintro ⟨ht, h⟩
    simp only [typed_select] at ht
    obtain ⟨b, hb, h⟩ := ht.1.bind_eq_some h
    obtain ⟨y, hy, h⟩ := ht.2.1.bind_eq_some h
    obtain ⟨z, hz, hx⟩ := ht.2.2.bind_eq_some h
    refine ⟨b, y, z, hb, hy, hz, ?_⟩
    simp only [APInt.isZero, beq_iff_eq] at hx
    split at hx <;> simp_all
  · rintro ⟨b, y, z, hb, hy, hz, rfl⟩
    refine ⟨by simp [hb.typed, hy.typed, hz.typed], ?_⟩
    simp only [Expr.eval, hb.eval_eq, hy.eval_eq, hz.eval_eq, APInt.isZero,
      Option.bind_eq_bind, Option.bind_some, Option.pure_def, beq_iff_eq]
    split <;> simp_all

theorem denotes_concat {u v : Nat} {x : BitVec (u + v)} (hl : Typed l u)
    (hr : Typed r v) : Denotes σ (.concat l r) x ↔
      ∃ (y : BitVec u) (z : BitVec v), Denotes σ l y ∧ Denotes σ r z ∧
        x = y ++ z := by
  constructor
  · rintro ⟨_, h⟩
    obtain ⟨y, hy, h⟩ := hl.bind_eq_some h
    obtain ⟨z, hz, hx⟩ := hr.bind_eq_some h
    exact ⟨y, z, hy, hz, by simpa [APInt.concat] using hx.symm⟩
  · rintro ⟨y, z, hy, hz, rfl⟩
    refine ⟨typed_concat.mpr ⟨u, v, hl, hr, rfl⟩, ?_⟩
    simp [Expr.eval, hy.eval_eq, hz.eval_eq, APInt.concat]

theorem denotes_extract : Denotes σ (.extract e off w) x ↔
    0 < w ∧ ∃ (u : Nat) (y : BitVec u), off + w ≤ u ∧ Denotes σ e y ∧
      x = y.extractLsb' off w := by
  constructor
  · rintro ⟨ht, h⟩
    obtain ⟨_, hw, u, hu, hle⟩ := typed_extract.mp ht
    obtain ⟨y, hy, hx⟩ := hu.bind_eq_some h
    exact ⟨hw, u, y, hle, hy, by simpa [APInt.extract] using hx.symm⟩
  · rintro ⟨hw, u, y, hle, hy, rfl⟩
    refine ⟨typed_extract.mpr ⟨rfl, hw, u, hy.typed, hle⟩, ?_⟩
    simp [Expr.eval, hy.eval_eq, APInt.extract]

theorem denotes_zext : Denotes σ (.zext e w) x ↔
    ∃ (u : Nat) (y : BitVec u), u ≤ w ∧ Denotes σ e y ∧ x = y.setWidth w := by
  constructor
  · rintro ⟨ht, h⟩
    obtain ⟨_, u, hu, hle⟩ := typed_zext.mp ht
    obtain ⟨y, hy, hx⟩ := hu.bind_eq_some h
    exact ⟨u, y, hle, hy, by simpa [APInt.zextOrTrunc] using hx.symm⟩
  · rintro ⟨u, y, hle, hy, rfl⟩
    refine ⟨typed_zext.mpr ⟨rfl, u, hy.typed, hle⟩, ?_⟩
    simp [Expr.eval, hy.eval_eq, APInt.zextOrTrunc]

theorem denotes_sext : Denotes σ (.sext e w) x ↔
    ∃ (u : Nat) (y : BitVec u), u ≤ w ∧ Denotes σ e y ∧
      x = y.signExtend w := by
  constructor
  · rintro ⟨ht, h⟩
    obtain ⟨_, u, hu, hle⟩ := typed_sext.mp ht
    obtain ⟨y, hy, hx⟩ := hu.bind_eq_some h
    exact ⟨u, y, hle, hy, by simpa [APInt.sextOrTrunc] using hx.symm⟩
  · rintro ⟨u, y, hle, hy, rfl⟩
    refine ⟨typed_sext.mpr ⟨rfl, u, hy.typed, hle⟩, ?_⟩
    simp [Expr.eval, hy.eval_eq, APInt.sextOrTrunc]

theorem denotes_not : Denotes σ (.not e) x ↔
    ∃ y : BitVec w, Denotes σ e y ∧ x = ~~~y := by
  constructor
  · rintro ⟨ht, h⟩
    obtain ⟨y, hy, hx⟩ := (typed_not.mp ht).bind_eq_some h
    exact ⟨y, hy, by simpa [APInt.not] using hx.symm⟩
  · rintro ⟨y, hy, rfl⟩
    refine ⟨typed_not.mpr hy.typed, ?_⟩
    simp [Expr.eval, hy.eval_eq, APInt.not]

theorem denotes_binary : Denotes σ (.binary k l r) x ↔
    ∃ y z : BitVec w, Denotes σ l y ∧ Denotes σ r z ∧
      k.apply y z = some x := by
  constructor
  · rintro ⟨ht, h⟩
    obtain ⟨hl, hr⟩ := typed_binary.mp ht
    obtain ⟨y, hy, h⟩ := hl.bind_eq_some h
    obtain ⟨z, hz, hx⟩ := hr.bind_eq_some h
    exact ⟨y, z, hy, hz, by simpa using hx⟩
  · rintro ⟨y, z, hy, hz, hx⟩
    refine ⟨typed_binary.mpr ⟨hy.typed, hz.typed⟩, ?_⟩
    simp [Expr.eval, hy.eval_eq, hz.eval_eq, hx]

theorem denotes_cmp {x : BitVec 1} : Denotes σ (.cmp ck l r) x ↔
    ∃ (u : Nat) (y z : BitVec u), Denotes σ l y ∧ Denotes σ r z ∧
      x = BitVec.ofBool (ck.apply y z) := by
  constructor
  · rintro ⟨ht, h⟩
    obtain ⟨_, u, hl, hr⟩ := typed_cmp.mp ht
    obtain ⟨y, hy, h⟩ := hl.bind_eq_some h
    obtain ⟨z, hz, hx⟩ := hr.bind_eq_some h
    exact ⟨u, y, z, hy, hz, by simpa [APInt.ofBool] using hx.symm⟩
  · rintro ⟨u, y, z, hy, hz, rfl⟩
    refine ⟨typed_cmp.mpr ⟨rfl, u, hy.typed, hz.typed⟩, ?_⟩
    simp [Expr.eval, hy.eval_eq, hz.eval_eq, APInt.ofBool]

end

/-! ## Boolean expressions -/

/-- The boolean expression `e` is true under `σ`. -/
def Holds (σ : Valuation) (e : Expr) : Prop := Denotes σ e 1#1

/-- The boolean expression `e` has a value under `σ`, and is false. -/
def Fails (σ : Valuation) (e : Expr) : Prop := Denotes σ e 0#1

theorem Holds.not_fails (h : Holds σ e) :
    ¬Fails σ e := fun h' => absurd (h.unique h') (by decide)

theorem holds_or_fails {x : BitVec 1} (h : Denotes σ e x) : Holds σ e ∨ Fails σ e := by
  have : ∀ x : BitVec 1, x = 1#1 ∨ x = 0#1 := by decide
  rcases this x with rfl | rfl
  · exact .inl h
  · exact .inr h

/-- A set of constraints is its conjunction. -/
def AllHold (σ : Valuation) (cs : List Expr) : Prop := ∀ c ∈ cs, Holds σ c

def SomeFails (σ : Valuation) (cs : List Expr) : Prop := ∃ c ∈ cs, Fails σ c

theorem allHold_append : AllHold σ (cs ++ ds) ↔ AllHold σ cs ∧ AllHold σ ds := by
  simp [AllHold, or_imp, forall_and]

theorem someFails_append :
    SomeFails σ (cs ++ ds) ↔ SomeFails σ cs ∨ SomeFails σ ds := by
  simp [SomeFails, or_and_right, exists_or]

theorem allHold_cons : AllHold σ (c :: cs) ↔ Holds σ c ∧ AllHold σ cs := by
  simp [AllHold]

theorem allHold_singleton : AllHold σ [c] ↔ Holds σ c := List.forall_mem_singleton

theorem allHold_snoc : AllHold σ (cs ++ [c]) ↔ AllHold σ cs ∧ Holds σ c := by
  rw [allHold_append, allHold_singleton]

theorem someFails_cons : SomeFails σ (c :: cs) ↔ Fails σ c ∨ SomeFails σ cs := by
  simp [SomeFails]

/-- Every constraint is a well-formed boolean expression. -/
def Boolean (cs : List Expr) : Prop := ∀ c ∈ cs, Typed c 1

theorem boolean_append : Boolean (cs ++ ds) ↔ Boolean cs ∧ Boolean ds := by
  simp [Boolean, or_imp, forall_and]

theorem boolean_cons : Boolean (c :: cs) ↔ Typed c 1 ∧ Boolean cs := by
  simp [Boolean]

theorem boolean_snoc : Boolean (cs ++ [c]) ↔ Boolean cs ∧ Typed c 1 :=
  boolean_append.trans (and_congr_right' List.forall_mem_singleton)

theorem AllHold.not_someFails (h : AllHold σ cs) : ¬SomeFails σ cs := fun ⟨c, hc, hf⟩ =>
  (h c hc).not_fails hf

/-- Under every valuation of `A` the constraints hold or one of them is false:
a division by zero in one is never all that keeps them from holding. -/
def Decided (A : Valuation → Prop) (cs : List Expr) : Prop :=
  ∀ σ, A σ → AllHold σ cs ∨ SomeFails σ cs

def Satisfiable (A : Valuation → Prop) (cs : List Expr) : Prop :=
  ∃ σ, A σ ∧ AllHold σ cs

end VitalSE
