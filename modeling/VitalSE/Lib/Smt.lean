import VitalSE.Lib.APInt

/-!
# Terms over bit-vectors and arrays

The part of the quantifier-free language of fixed-size bit-vectors and arrays
that a translation into a solver needs. Booleans and words are different sorts,
also at width one.
-/

namespace Smt

/-- Operations on bit-vectors. -/
inductive BvOp where
  | add | sub | mul | udiv | sdiv | urem | srem | and | or | xor
deriving DecidableEq, Repr

/-- Comparisons of bit-vectors. -/
inductive BvCmp where
  | ult | ule | slt | sle
deriving DecidableEq, Repr

/-- Terms over bit-vectors, truth values and arrays. -/
inductive Term where
  | boolConst (value : Bool)
  | bvConst (width value : Nat)
  | arrayVar (name : String) (domain range : Nat)
  | not (e : Term)
  | and (a b : Term)
  | or (a b : Term)
  | iff (a b : Term)
  | ite (cond t e : Term)
  | eq (a b : Term)
  | bvNot (e : Term)
  | bvNeg (e : Term)
  | bv (op : BvOp) (a b : Term)
  | bvCmp (op : BvCmp) (a b : Term)
  | concat (a b : Term)
  | extract (top bottom : Nat) (e : Term)
  | signExtend (e : Term) (width : Nat)
  | read (array index : Term)
  | write (array index value : Term)
deriving DecidableEq, Repr

/-- What a term stands for. -/
inductive TermSort where
  | bool
  | bv (width : Nat)
  | array (domain range : Nat)
deriving DecidableEq, Repr

namespace TermSort

/-- The width of a bit-vector. -/
def bvLength : TermSort → Nat
  | bv width => width
  | _ => 0

/-- The width of the elements of an array. -/
def elementWidth : TermSort → Nat
  | array _ range => range
  | _ => 0

end TermSort

namespace Term

/-- The sort a solver reports for a term, read off its outermost operators. -/
def sort : Term → TermSort
  | boolConst _ | not _ | and _ _ | or _ _ | iff _ _ | eq _ _ | bvCmp _ _ _ =>
    .bool
  | bvConst width _ => .bv width
  | arrayVar _ domain range => .array domain range
  | ite _ t _ => t.sort
  | bvNot e | bvNeg e => e.sort
  | bv _ a _ => a.sort
  | concat a b => .bv (a.sort.bvLength + b.sort.bvLength)
  | extract top bottom _ => .bv (top + 1 - bottom)
  | signExtend _ width => .bv width
  | read array _ => .bv array.sort.elementWidth
  | write array _ _ => array.sort

/-- The width of a word term. -/
def bvLength (t : Term) : Nat := t.sort.bvLength

end Term

end Smt
