import VitalSE.Lib.APInt

/-!
# Expressions

The expression language of the symbolic executor: fixed-width bit-vector terms
over byte arrays, with an update list at every read. The grammar here is the
grammar of the node classes, not the grammar of what the smart constructors
return: nothing says that a comparison is one of the canonical four or that a
constant is on the left, because the constructors are also called on terms that
are not in that form.

An array is compared as an object, so it carries its address next to its name.
A constant array stores one byte for each position; a symbolic one stores
none. All arrays of the executor are indexed by 32 bits and hold bytes.

`Typed e w` says that `e` is well formed and has width `w`. Width checks are
assertions in the source, spread over the constructors; here they are one
predicate, and the `typed_*` lemmas are all that is used about it.
-/

namespace VitalSE

/-- An array object. Two arrays of one name are still two arrays. -/
structure Array where
  address : Nat
  name : String
  size : Nat
  constantValues : List (BitVec 8)
  size_lt : size < 2 ^ 32
  values_size : constantValues = [] ∨ constantValues.length = size
deriving DecidableEq

namespace Array

/-- A symbolic array of one byte. -/
def byte (address : Nat) (name : String) : Array := ⟨address, name, 1, [], by decide, .inl rfl⟩

def domain : Nat := 32

def range : Nat := 8

def isSymbolicArray (a : Array) : Bool := a.constantValues.isEmpty

def isConstantArray (a : Array) : Bool := !a.isSymbolicArray

theorem length_constantValues {a : Array} (h : a.isConstantArray = true) :
    a.constantValues.length = a.size := by
  refine a.values_size.resolve_left fun hnil => ?_
  simp [isConstantArray, isSymbolicArray, hnil] at h

end Array

inductive BinaryKind where
  | add | sub | mul | udiv | sdiv | urem | srem
  | and | or | xor | shl | lshr | ashr
deriving DecidableEq, Repr

inductive CmpKind where
  | eq | ne | ult | ule | ugt | uge | slt | sle | sgt | sge
deriving DecidableEq, Repr

mutual

/-- A node. A read holds its update list as the root array and the newest
update. -/
inductive Expr where
  | constant (value : APInt)
  | notOptimized (src : Expr)
  | read (root : Array) (head : UpdateNode) (index : Expr)
  | select (cond trueExpr falseExpr : Expr)
  | concat (left right : Expr)
  | extract (expr : Expr) (offset width : Nat)
  | zext (src : Expr) (width : Nat)
  | sext (src : Expr) (width : Nat)
  | not (expr : Expr)
  | binary (kind : BinaryKind) (left right : Expr)
  | cmp (kind : CmpKind) (left right : Expr)
deriving DecidableEq

/-- The updates of an array, newest first; `null` is the unwritten array. -/
inductive UpdateNode where
  | null
  | node (next : UpdateNode) (index value : Expr)
deriving DecidableEq

end

namespace UpdateNode

/-- `UpdateNode::getSize`, and 0 for no node: a counter of 32 bits. -/
def getSize : UpdateNode → BitVec 32
  | null => 0
  | node next _ _ => next.getSize + 1

/-- The number of updates. -/
def length : UpdateNode → Nat
  | null => 0
  | node next _ _ => next.length + 1

theorem getSize_eq : ∀ n : UpdateNode, n.getSize = BitVec.ofNat 32 n.length
  | null => rfl
  | node next _ _ => by
    rw [getSize, length, getSize_eq next, BitVec.ofNat_add]
    rfl

end UpdateNode

/-- The counter of the updates of a constant array has not wrapped around. -/
def Array.counts (root : Array) (head : UpdateNode) : Bool :=
  root.isSymbolicArray || head.length < 2 ^ 32

namespace Expr

def getWidth : Expr → Nat
  | constant value => value.width
  | notOptimized src => src.getWidth
  | read _ _ _ => Array.range
  | select _ trueExpr _ => trueExpr.getWidth
  | concat left right => left.getWidth + right.getWidth
  | extract _ _ width => width
  | zext _ width => width
  | sext _ width => width
  | not expr => expr.getWidth
  | binary _ left _ => left.getWidth
  | cmp _ _ _ => 1

end Expr

mutual

/-- The width checks of the node classes, over a whole term. The source does not
check the number of updates; it is bounded for constant arrays, where the smart
constructors look at its counter. -/
def Expr.wellTyped : Expr → Bool
  | .constant value => 0 < value.width
  | .notOptimized src => src.wellTyped
  | .read root head index =>
    head.wellTyped && index.wellTyped && index.getWidth == Array.domain &&
      root.counts head
  | .select cond trueExpr falseExpr =>
    cond.wellTyped && trueExpr.wellTyped && falseExpr.wellTyped &&
      cond.getWidth == 1 && trueExpr.getWidth == falseExpr.getWidth
  | .concat left right => left.wellTyped && right.wellTyped
  | .extract expr offset width =>
    expr.wellTyped && 0 < width && offset + width ≤ expr.getWidth
  | .zext src width => src.wellTyped && src.getWidth ≤ width
  | .sext src width => src.wellTyped && src.getWidth ≤ width
  | .not expr => expr.wellTyped
  | .binary _ left right =>
    left.wellTyped && right.wellTyped && left.getWidth == right.getWidth
  | .cmp _ left right =>
    left.wellTyped && right.wellTyped && left.getWidth == right.getWidth

def UpdateNode.wellTyped : UpdateNode → Bool
  | .null => true
  | .node next index value =>
    next.wellTyped && index.wellTyped && value.wellTyped &&
      index.getWidth == Array.domain && value.getWidth == Array.range

end

/-! ## Typing -/

/-- `e` is well formed and `w` bits wide. -/
def Typed (e : Expr) (w : Nat) : Prop := e.wellTyped ∧ e.getWidth = w

instance (e : Expr) (w : Nat) : Decidable (Typed e w) :=
  inferInstanceAs (Decidable (_ ∧ _))

theorem Typed.getWidth_eq {e : Expr} {w : Nat} (h : Typed e w) :
    e.getWidth = w := h.2

theorem Typed.unique {e : Expr} {w w' : Nat} (h : Typed e w)
    (h' : Typed e w') : w = w' := h.2.symm.trans h'.2

section

variable {w n off : Nat} {a c l r t f i v e : Expr} {k : BinaryKind}
  {ck : CmpKind} {root : Array} {head : UpdateNode}

attribute [local simp] Expr.getWidth Expr.wellTyped UpdateNode.wellTyped

@[simp] theorem typed_constant {value : APInt} :
    Typed (.constant value) w ↔ 0 < w ∧ value.width = w := by
  simp only [Typed, Expr.wellTyped, Expr.getWidth, decide_eq_true_eq]
  constructor <;> rintro ⟨h, rfl⟩ <;> exact ⟨h, rfl⟩

@[simp] theorem typed_notOptimized :
    Typed (.notOptimized e) w ↔ Typed e w := by
  simp [Typed]

@[simp] theorem typed_read : Typed (.read root head i) w ↔
    w = 8 ∧ head.wellTyped ∧ Typed i 32 ∧ root.counts head := by
  simp only [Typed, Expr.wellTyped, Expr.getWidth, Array.range, Array.domain,
    Bool.and_eq_true, beq_iff_eq]
  tauto

@[simp] theorem typed_select : Typed (.select c t f) w ↔
    Typed c 1 ∧ Typed t w ∧ Typed f w := by
  simp only [Typed, Expr.wellTyped, Expr.getWidth,
    Bool.and_eq_true, beq_iff_eq]
  grind

@[simp] theorem typed_concat : Typed (.concat l r) w ↔
    ∃ u v, Typed l u ∧ Typed r v ∧ w = u + v := by
  simp only [Typed, Expr.wellTyped, Expr.getWidth, Bool.and_eq_true]
  grind

@[simp] theorem typed_extract : Typed (.extract e off n) w ↔
    n = w ∧ 0 < w ∧ ∃ u, Typed e u ∧ off + w ≤ u := by
  simp only [Typed, Expr.wellTyped, Expr.getWidth, Bool.and_eq_true,
    decide_eq_true_eq]
  grind

@[simp] theorem typed_zext : Typed (.zext e n) w ↔
    n = w ∧ ∃ u, Typed e u ∧ u ≤ w := by
  simp only [Typed, Expr.wellTyped, Expr.getWidth, Bool.and_eq_true,
    decide_eq_true_eq]
  grind

@[simp] theorem typed_sext : Typed (.sext e n) w ↔
    n = w ∧ ∃ u, Typed e u ∧ u ≤ w := typed_zext (e := e)

@[simp] theorem typed_not : Typed (.not e) w ↔ Typed e w := by
  simp [Typed]

@[simp] theorem typed_binary : Typed (.binary k l r) w ↔
    Typed l w ∧ Typed r w := by
  simp only [Typed, Expr.wellTyped, Expr.getWidth, Bool.and_eq_true,
    beq_iff_eq]
  grind

@[simp] theorem typed_cmp : Typed (.cmp ck l r) w ↔
    w = 1 ∧ ∃ u, Typed l u ∧ Typed r u := by
  simp only [Typed, Expr.wellTyped, Expr.getWidth,
    Bool.and_eq_true, beq_iff_eq]
  grind

@[simp] theorem wellTyped_null : UpdateNode.null.wellTyped = true := rfl

@[simp] theorem wellTyped_node : (UpdateNode.node head i v).wellTyped = true ↔
    head.wellTyped ∧ Typed i 32 ∧ Typed v 8 := by
  simp only [Typed, UpdateNode.wellTyped, Array.domain, Array.range,
    Bool.and_eq_true, beq_iff_eq]
  tauto

@[simp] theorem counts_null : root.counts .null = true := by
  simp [Array.counts, UpdateNode.length]

theorem counts_of_length_le {head' : UpdateNode} (h : root.counts head)
    (hle : head'.length ≤ head.length) : root.counts head' := by
  simp only [Array.counts, Bool.or_eq_true, decide_eq_true_eq] at h ⊢
  exact h.imp_right hle.trans_lt

theorem counts_next (h : root.counts (.node head i v)) : root.counts head :=
  counts_of_length_le h (Nat.le_succ _)

end

theorem Typed.pos : ∀ {e : Expr} {w : Nat}, Typed e w → 0 < w
  | .constant _, _, h => (typed_constant.mp h).1
  | .notOptimized e, _, h => (typed_notOptimized.mp h).pos
  | .read .., _, h => by obtain ⟨rfl, _⟩ := typed_read.mp h; decide
  | .select .., _, h => (typed_select.mp h).2.1.pos
  | .concat .., _, h => by
    obtain ⟨u, v, hu, _, rfl⟩ := typed_concat.mp h
    have := hu.pos
    omega
  | .extract .., _, h => (typed_extract.mp h).2.1
  | .zext e _, _, h | .sext e _, _, h => by
    obtain ⟨_, u, hu, hle⟩ := (typed_zext (e := e)).mp h
    exact hu.pos.trans_le hle
  | .not e, _, h => (typed_not.mp h).pos
  | .binary .., _, h => (typed_binary.mp h).1.pos
  | .cmp .., _, h => by obtain ⟨rfl, _⟩ := typed_cmp.mp h; decide

end VitalSE
