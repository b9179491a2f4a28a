import VitalSE.Expr.Constraints
import VitalSE.Lib.PreorderCode

/-!
# Hashes and the order of expressions

`Expr::compare` works on node objects that are shared: two references to one
object are equal without a look at it, and pairs of objects already found equal
in the same call are remembered. So it is modelled on a heap of objects; `expr r`
is the term below the object `r`, and everything else about an object is a field
that agrees with that term.

The number of updates below an update node is kept in 32 bits.
-/

namespace VitalSE

/-- `Expr::Kind`. -/
inductive Kind where
  | constant | notOptimized | read | select | concat | extract | zext | sext | not
  | binary (kind : BinaryKind)
  | cmp (kind : CmpKind)
deriving DecidableEq, Repr

/-- The value of the enumerator; the number 2 is not used any more. -/
def Kind.number : Kind → Nat
  | constant => 0
  | notOptimized => 1
  | read => 3
  | select => 4
  | concat => 5
  | extract => 6
  | zext => 7
  | sext => 8
  | not => 9
  | binary k => match k with
    | .add => 10
    | .sub => 11
    | .mul => 12
    | .udiv => 13
    | .sdiv => 14
    | .urem => 15
    | .srem => 16
    | .and => 17
    | .or => 18
    | .xor => 19
    | .shl => 20
    | .lshr => 21
    | .ashr => 22
  | cmp k => match k with
    | .eq => 23
    | .ne => 24
    | .ult => 25
    | .ule => 26
    | .ugt => 27
    | .uge => 28
    | .slt => 29
    | .sle => 30
    | .sgt => 31
    | .sge => 32

def Expr.getKind : Expr → Kind
  | .constant _ => .constant
  | .notOptimized _ => .notOptimized
  | .read _ _ _ => .read
  | .select _ _ _ => .select
  | .concat _ _ => .concat
  | .extract _ _ _ => .extract
  | .zext _ _ => .zext
  | .sext _ _ => .sext
  | .not _ => .not
  | .binary k _ _ => .binary k
  | .cmp k _ _ => .cmp k

/-- The bytes of a name. -/
def Array.bytes (a : Array) : List Nat :=
  a.name.toByteArray.data.toList.map UInt8.toNat

/-! ## Hashes -/

def magicHashConstant : BitVec 32 := 39

/-- The default `computeHash`. -/
def Kind.computeHash (k : Kind) (kids : List (BitVec 32)) : BitVec 32 :=
  kids.foldl (fun res kid => (res <<< 1) ^^^ (kid * magicHashConstant))
    (BitVec.ofNat 32 k.number * magicHashConstant)

/-- The part of `UpdateList::hash` that reads the name; a byte is a `char`, which has
a sign. -/
def Array.hash (a : Array) : BitVec 32 :=
  a.bytes.foldl (fun res c => res * magicHashConstant + (BitVec.ofNat 8 c).signExtend 32) 0

mutual

/-- `hashValue` as `computeHash` leaves it. The hash of a constant of more than 64 bits
is a function of the compiler library. -/
def Expr.computeHash (hashValue : APInt → BitVec 32) : Expr → BitVec 32
  | .constant c =>
    (if c.width ≤ 64 then BitVec.ofNat 32 c.toNat else hashValue c) ^^^
      (BitVec.ofNat 32 c.width * magicHashConstant)
  | .notOptimized e => Kind.notOptimized.computeHash [e.computeHash hashValue]
  | .read root head index =>
    (index.computeHash hashValue * magicHashConstant) ^^^
      (root.hash ^^^ head.computeHash hashValue)
  | .select c t f => Kind.select.computeHash
      [c.computeHash hashValue, t.computeHash hashValue, f.computeHash hashValue]
  | .concat l r =>
    Kind.concat.computeHash [l.computeHash hashValue, r.computeHash hashValue]
  | .extract e offset width =>
    (BitVec.ofNat 32 offset * magicHashConstant) ^^^
      (BitVec.ofNat 32 width * magicHashConstant) ^^^
      (e.computeHash hashValue * magicHashConstant)
  | .zext e width => (BitVec.ofNat 32 width * magicHashConstant) ^^^
      (e.computeHash hashValue * magicHashConstant)
  | .sext e width => (BitVec.ofNat 32 width * magicHashConstant) ^^^
      (e.computeHash hashValue * magicHashConstant)
  | .not e => e.computeHash hashValue * magicHashConstant * BitVec.ofNat 32 Kind.not.number
  | .binary k l r =>
    (Kind.binary k).computeHash [l.computeHash hashValue, r.computeHash hashValue]
  | .cmp k l r =>
    (Kind.cmp k).computeHash [l.computeHash hashValue, r.computeHash hashValue]

/-- The same for an update node; 0 stands for no node. -/
def UpdateNode.computeHash (hashValue : APInt → BitVec 32) : UpdateNode → BitVec 32
  | .null => 0
  | .node next index value =>
    index.computeHash hashValue ^^^ value.computeHash hashValue ^^^
      next.computeHash hashValue

end

/-! ## The heap -/

/-- Node objects, update nodes and arrays, each kind by its own references. A smaller
number is a smaller address. -/
structure ExprHeap (hashValue : APInt → BitVec 32) where
  expr : Nat → Expr
  kids : Nat → List Nat
  head : Nat → Option Nat
  hash : Nat → BitVec 32
  node : Nat → UpdateNode
  next : Nat → Option Nat
  index : Nat → Nat
  value : Nat → Nat
  array : Nat → Array
  kids_expr : ∀ r, (kids r).map expr = (expr r).kids
  head_node : ∀ {r root n i}, expr r = .read root n i → (head r).elim .null node = n
  hash_expr : ∀ r, hash r = (expr r).computeHash hashValue
  node_eq : ∀ u, node u = .node ((next u).elim .null node) (expr (index u)) (expr (value u))
  array_address : ∀ {r root n i}, expr r = .read root n i → root = array root.address

/-- The pairs found equal so far in the running call, smaller reference first. -/
abbrev EquivSet := List (Nat × Nat)

abbrev CompareM := StateT EquivSet (Except Abort)

/-- The next comparison, if this one has not decided. -/
def CompareM.orElse (res : CompareM Ordering) (next : CompareM Ordering) :
    CompareM Ordering := do
  match ← res with
  | .eq => next
  | res => return res

namespace ExprHeap

variable {hashValue : APInt → BitVec 32} (H : ExprHeap hashValue)

/-- `UpdateNode::compare`. -/
def compareNode (cmp : Nat → Nat → CompareM Ordering) (u v : Nat) : CompareM Ordering :=
  (cmp (H.index u) (H.index v)).orElse (cmp (H.value u) (H.value v))

/-- The loop of `UpdateList::compare`. The number bounds its rounds. -/
def compareNodes (cmp : Nat → Nat → CompareM Ordering) :
    Nat → Option Nat → Option Nat → CompareM Ordering
  | n + 1, some u, some v =>
    -- exploit shared list structure
    if u = v then return .eq
    else (H.compareNode cmp u v).orElse (compareNodes cmp n (H.next u) (H.next v))
  | _, none, none => return .eq
  | 0, some _, some _ => throw .outOfFuel
  | _, _, _ => throw (.assertion "!an && !bn")

/-- `UpdateList::compare`, for the update lists of two reads. -/
def compareUpdateLists (cmp : Nat → Nat → CompareM Ordering) (root root' : Array)
    (head head' : Option Nat) : CompareM Ordering :=
  let first := head.elim .null H.node
  let first' := head'.elim .null H.node
  CompareM.orElse (pure (compareNats root.bytes root'.bytes)) <|
  CompareM.orElse (pure (compare root.address root'.address)) <|
  CompareM.orElse (pure (compare first.getSize.toNat first'.getSize.toNat)) <|
  H.compareNodes cmp (first.weight + 1) head head'

/-- `compareContents`, for two objects of one kind. -/
def compareContents (cmp : Nat → Nat → CompareM Ordering) (a b : Nat) :
    CompareM Ordering :=
  match H.expr a, H.expr b with
  | .constant c, .constant d =>
    return (compare c.width d.width).then (compare c.toNat d.toNat)
  | .read root _ _, .read root' _ _ =>
    H.compareUpdateLists cmp root root' (H.head a) (H.head b)
  | .concat l r, .concat l' r' =>
    return compare (Expr.concat l r).getWidth (Expr.concat l' r').getWidth
  | .extract _ offset width, .extract _ offset' width' =>
    return (compare offset offset').then (compare width width')
  | .zext _ width, .zext _ width' => return compare width width'
  | .sext _ width, .sext _ width' => return compare width width'
  | _, _ => return .eq

/-- The loop over the kids. -/
def compareKids (cmp : Nat → Nat → CompareM Ordering) :
    List Nat → List Nat → CompareM Ordering
  | a :: as, b :: bs => (cmp a b).orElse (compareKids cmp as bs)
  | _, _ => return .eq

/-- The two references in the order of the addresses. -/
def sortedPair (a b : Nat) : Nat × Nat := if a < b then (a, b) else (b, a)

/-- `Expr::compare` with the set of the running call. The comparison of an update node
starts a new call, and every call uses one and the same set, which it leaves empty. The
number bounds the recursion. -/
def compareAux : Nat → Nat → Nat → CompareM Ordering
  | 0, _, _ => throw .outOfFuel
  | n + 1, a, b => do
    if a = b then return .eq
    if sortedPair a b ∈ (← get) then return .eq
    let ak := (H.expr a).getKind
    let bk := (H.expr b).getKind
    if ak ≠ bk then return compare ak.number bk.number
    if H.hash a ≠ H.hash b then return compare (H.hash a).toNat (H.hash b).toNat
    let nested := fun a b => do
      let res ← compareAux n a b
      set ([] : EquivSet)
      return res
    (H.compareContents nested a b).orElse <|
      (compareKids (compareAux n) (H.kids a) (H.kids b)).orElse do
        modify (sortedPair a b :: ·)
        return .eq

/-- `Expr::compare`. -/
protected def compare (a b : Nat) : Except Abort Ordering :=
  (H.compareAux (H.expr a).weight a b).run' []

end ExprHeap

end VitalSE
