import VitalSE.Lib.Smt
import VitalSE.Expr.Visitor
import VitalSE.Solver.ConstantDivision

/-!
# Building solver terms

`STPBuilder` and `Z3Builder` translate an expression into a term of their
solver. The two are written side by side in the source and mostly agree line by
line; here the common lines are one translation over a record of the places
where they differ, and the two builders are two such records.

An expression of width one becomes a boolean term, any other a word. A builder
keeps the arrays it has declared, the terms of update nodes and the terms of
expressions it has seen. An update node is an object in the source and belongs
to the lists of one array, so the cache has the array next to the node.

An assertion that fails is an error with its text. A term whose parts do not fit
together, which the solver's interface would reject, is built here all the same
and has no value.
-/

namespace VitalSE

open Smt

structure BuilderState where
  /-- `_arr_hash._array_hash`, in the order of insertion. -/
  arrays : List (Array × Term)
  /-- `_arr_hash._update_node_hash`. -/
  updateNodes : List ((Array × UpdateNode) × Term)
  constructed : List (Expr × (Term × Nat))
  /-- The values of the constant arrays, for a builder that asserts them. -/
  constantArrayAssertions : List (Array × List Term)

def BuilderState.initial : BuilderState := ⟨[], [], [], []⟩

abbrev BuilderM := StateT BuilderState (Except String)

/-! ## Constants -/

/-- A constant that fits 32 bits, as all that are built this way do. -/
def bvConst32 (width value : Nat) : Term := .bvConst width value

def bvConst64 (width : Nat) (value : BitVec 64) : Term :=
  .bvConst width value.toNat

/-- The loop of `bvZExtConst`: `width` bits of zero above `expr`. -/
def bvZExtConst.loop (width : Nat) (expr : Term) : Term :=
  if 64 < width then loop (width - 64) (.concat (bvConst64 64 0) expr)
  else .concat (bvConst64 width 0) expr

def bvZExtConst (width : Nat) (value : BitVec 64) : Term :=
  if width ≤ 64 then bvConst64 width value
  else bvZExtConst.loop (width - 64) (bvConst64 64 value)

def bvOne (width : Nat) : Term := bvZExtConst width 1

def bvZero (width : Nat) : Term := bvZExtConst width 0

/-- The low 64 bits of a constant. -/
def zextValue64 (c : APInt) : BitVec 64 := BitVec.ofNat 64 c.toNat

/-- The loop over a constant of more than 64 bits: `res` holds what is below
`tmp` and the low 64 bits of `tmp`. -/
def constructConstant.loop (tmp : APInt) (res : Term) : Term :=
  if 64 < tmp.width then
    let tmp' := ConstantExpr.Extract tmp 64 (tmp.width - 64)
    let width := min 64 tmp'.width
    loop tmp'
      (.concat (bvConst64 width
        (zextValue64 (ConstantExpr.Extract tmp' 0 width))) res)
  else res
termination_by tmp.width
decreasing_by
  simp only [ConstantExpr.Extract, APInt.zextOrTrunc]
  omega

def constructConstant (c : APInt) : Term :=
  -- Coerce to bool if necessary.
  if c.width = 1 then .boolConst (ConstantExpr.isTrue c)
  -- Fast path.
  else if c.width ≤ 32 then bvConst32 c.width c.toNat
  else if c.width ≤ 64 then bvConst64 c.width (zextValue64 c)
  else constructConstant.loop c
    (bvConst64 64 (zextValue64 (ConstantExpr.Extract c 0 64)))

/-! ## Shifts -/

def bvExtract (expr : Term) (top bottom : Nat) : Term :=
  .extract top bottom expr

def bvBoolExtract (expr : Term) (bit : Nat) : Term :=
  .eq (bvExtract expr bit bit) (bvOne 1)

/-- Logical right shift. -/
def bvRightShift (expr : Term) (shift : Nat) : Term :=
  let width := expr.bvLength
  if shift = 0 then expr
  else if shift ≥ width then bvZero width -- Overshift to zero
  else .concat (bvZero shift) (bvExtract expr (width - 1) shift)

/-- Logical left shift. -/
def bvLeftShift (expr : Term) (shift : Nat) : Term :=
  let width := expr.bvLength
  if shift = 0 then expr
  else if shift ≥ width then bvZero width -- Overshift to zero
  else .concat (bvExtract expr (width - shift - 1) 0) (bvZero shift)

/-- The amount of a shift by a constant, `(unsigned) CE->getLimitedValue()`:
limited to 64 bits and then cut to 32. -/
def constantShift (c : APInt) : Nat := min c.toNat (2 ^ 64 - 1) % 2 ^ 32

section

/- The tests of a shift on `width` bits by the term `shift` for the amount `i`,
and the words of ones, differ between the builders. -/
variable (shiftEquals : (width : Nat) → (shift : Term) → (i : Nat) →
    Except String Term) (bvMinusOne : Nat → Term)

/-- One case for each amount below `n`, the smallest outermost. -/
def shiftCases (width : Nat) (shift : Term) (shiftBy : Nat → Term) :
    Nat → Term → Except String Term
  | 0, res => .ok res
  | i + 1, res => do
    let cond ← shiftEquals width shift i
    shiftCases width shift shiftBy i (.ite cond (shiftBy i) res)

/-- If overshifting, shift to zero. -/
def guardOvershift (expr shift res : Term) : Term :=
  let width := expr.bvLength
  .ite (.bvCmp .ult shift (bvConst32 shift.bvLength width))
    res (bvZero width)

def bvVarLeftShift (expr shift : Term) : Except String Term := do
  let width := expr.bvLength
  let res ← shiftCases shiftEquals width shift (bvLeftShift expr) width
    (bvZero width)
  return guardOvershift expr shift res

def bvVarRightShift (expr shift : Term) : Except String Term := do
  let width := expr.bvLength
  let res ← shiftCases shiftEquals width shift (bvRightShift expr) width
    (bvZero width)
  return guardOvershift expr shift res

def constructAShrByConstant (expr : Term) (shift : Nat) (isSigned : Term) :
    Term :=
  let width := expr.bvLength
  if shift = 0 then expr
  else if shift ≥ width then bvZero width -- Overshift to zero
  else .ite isSigned
    (.concat (bvMinusOne shift) (bvExtract expr (width - 1) shift))
    (bvRightShift expr shift)

def bvVarArithRightShift (expr shift : Term) : Except String Term := do
  let width := expr.bvLength
  -- get the sign bit to fill with
  let signedBool := bvBoolExtract expr (width - 1)
  -- start with the result if shifting by width-1
  let res := constructAShrByConstant bvMinusOne expr (width - 1) signedBool
  let res ← shiftCases shiftEquals width shift
    (fun i => constructAShrByConstant bvMinusOne expr i signedBool) (width - 1) res
  return guardOvershift expr shift res

end

/-! ## The translation -/

/-- Where the builders differ. -/
structure Builder where
  useConstructHash : Bool
  bvSExtConst : (width : Nat) → (value : BitVec 64) → Term
  /-- The test of a shift by `shift` on `width` bits for the amount `i`. -/
  shiftEquals : (width : Nat) → (shift : Term) → (i : Nat) → Except String Term
  bvSignExtend : (src : Term) → (width : Nat) → Except String Term
  zeroExtend : (src : Term) → (srcWidth width : Nat) → Except String Term
  iffExpr : Term → Term → Except String Term
  /-- The result of an arithmetic operation, with its width checked. -/
  result : (result : Term) → (width : Nat) → Except String Term
  /-- A term for the operation of `kind` on `operand` and a constant, if the
  builder has one of its own. -/
  byConstant : (kind : BinaryKind) → (CE : APInt) → (operand : Term) →
    (width : Nat) → Option (Except String Term)
  /-- The contents of a constant array that has just been declared. -/
  constantArray : Array → Term → BuilderM Term

namespace Builder

variable (b : Builder)

def bvMinusOne (width : Nat) : Term := b.bvSExtConst width (-1)

end Builder

def BinaryKind.name : BinaryKind → String
  | add => "add" | sub => "sub" | mul => "mul"
  | udiv => "udiv" | sdiv => "sdiv" | urem => "urem" | srem => "srem"
  | and => "and" | or => "or" | xor => "xor"
  | shl => "shl" | lshr => "lshr" | ashr => "ashr"

def CmpKind.name : CmpKind → String
  | eq => "eq" | ne => "ne" | ult => "ult" | ule => "ule" | ugt => "ugt"
  | uge => "uge" | slt => "slt" | sle => "sle" | sgt => "sgt" | sge => "sge"

namespace Builder

variable (b : Builder)

def checkWords (width : Nat) (name : String) : Except String Unit :=
  assert (width ≠ 1) ("uncanonicalized " ++ name)

/-- A term and its width, or what builds them. -/
abbrev Kid := BuilderM (Term × Nat)

def constructExtract (offset width : Nat) (src : Kid) : Kid := do
  let (src, _) ← src
  if width = 1 then return (bvBoolExtract src offset, width)
  else return (bvExtract src (offset + width - 1) offset, width)

def constructZExt (width : Nat) (src : Kid) : Kid := do
  let (src, srcWidth) ← src
  if srcWidth = 1 then return (.ite src (bvOne width) (bvZero width), width)
  else return (← b.zeroExtend src srcWidth width, width)

def constructSExt (width : Nat) (src : Kid) : Kid := do
  let (src, srcWidth) ← src
  if srcWidth = 1 then
    return (.ite src (b.bvMinusOne width) (bvZero width), width)
  else return (← b.bvSignExtend src width, width)

def constructNot (expr : Kid) : Kid := do
  let (expr, width) ← expr
  if width = 1 then return (.not expr, width) else return (.bvNot expr, width)

/-- An operation that takes two terms of any width but one. -/
def constructArith (kind : BinaryKind) (op : BvOp) (left right : Kid) : Kid := do
  let (left, _) ← left
  let (right, width) ← right
  checkWords width kind.name
  return (← b.result (.bv op left right) width, width)

/-- A product looks at a constant on its left first. -/
def constructMul (l : Expr) (left right : Kid) : Kid := do
  let (right, width) ← right
  checkWords width BinaryKind.mul.name
  let general : Kid := do
    let (left, width) ← left
    return (← b.result (.bv .mul left right) width, width)
  match l with
  | .constant CE => match b.byConstant .mul CE right width with
    | some res => return (← res, width)
    | none => general
  | _ => general

/-- A quotient or remainder looks at a constant divisor first. -/
def constructDiv (kind : BinaryKind) (op : BvOp) (r : Expr) (left right : Kid) :
    Kid := do
  let (left, width) ← left
  checkWords width kind.name
  let general : Kid := do
    let (right, width) ← right
    return (← b.result (.bv op left right) width, width)
  match r with
  | .constant CE => match b.byConstant kind CE left width with
    | some res => return (← res, width)
    | none => general
  | _ => general

/-- A connective on booleans, or the operation on words. -/
def constructBitwise (connective : Term → Term → Term) (op : BvOp)
    (left right : Kid) : Kid := do
  let (left, _) ← left
  let (right, width) ← right
  if width = 1 then return (connective left right, width)
  else return (.bv op left right, width)

def constructShift (kind : BinaryKind) (byAmount : Term → Nat → Nat → Term)
    (byTerm : Term → Term → Except String Term) (r : Expr) (left right : Kid) :
    Kid := do
  let (left, width) ← left
  checkWords width kind.name
  match r with
  | .constant CE => return (byAmount left (constantShift CE) width, width)
  | _ =>
    let (amount, _) ← right
    return (← byTerm left amount, width)

def constructBinary (kind : BinaryKind) (l r : Expr) (left right : Kid) : Kid :=
  match kind with
  | .add => constructArith b .add .add left right
  | .sub => constructArith b .sub .sub left right
  | .mul => constructMul b l left right
  | .udiv => constructDiv b .udiv .udiv r left right
  | .sdiv => constructDiv b .sdiv .sdiv r left right
  | .urem => constructDiv b .urem .urem r left right
  | .srem => constructArith b .srem .srem left right
  | .and => constructBitwise .and .and left right
  | .or => constructBitwise .or .or left right
  | .xor => constructBitwise (fun x y => .ite x (.not y) y) .xor left right
  | .shl => constructShift .shl (fun expr amount _ => bvLeftShift expr amount)
      (bvVarLeftShift b.shiftEquals) r left right
  | .lshr => constructShift .lshr (fun expr amount _ => bvRightShift expr amount)
      (bvVarRightShift b.shiftEquals) r left right
  | .ashr => constructShift .ashr
      (fun expr amount width => constructAShrByConstant b.bvMinusOne expr amount
        (bvBoolExtract expr (width - 1)))
      (bvVarArithRightShift b.shiftEquals b.bvMinusOne) r left right

def constructEq (l : Expr) (left right : Kid) : Kid := do
  let (left, _) ← left
  let (right, width) ← right
  if width = 1 then
    match l with
    | .constant CE =>
      if ConstantExpr.isTrue CE then return (right, 1)
      else return (.not right, 1)
    | _ => return (← b.iffExpr left right, 1)
  else return (.eq left right, 1)

def constructOrder (kind : CmpKind) (op : BvCmp) (left right : Kid) : Kid := do
  let (left, _) ← left
  let (right, width) ← right
  checkWords width kind.name
  return (.bvCmp op left right, 1)

def constructCmp (kind : CmpKind) (l : Expr) (left right : Kid) : Kid :=
  match kind with
  | .eq => constructEq b l left right
  | .ult => constructOrder .ult .ult left right
  | .ule => constructOrder .ule .ule left right
  | .slt => constructOrder .slt .slt left right
  | .sle => constructOrder .sle .sle left right
  -- unused due to canonicalization
  | .ne | .ugt | .uge | .sgt | .sge => throw "unhandled Expr type"

/-- The cache of `construct` around `constructActual`. -/
def cached (e : Expr) (constructActual : Kid) : Kid := do
  if !b.useConstructHash || e.isConstant then constructActual
  else match (← get).constructed.lookup e with
    | some res => return res
    | none =>
      let res ← constructActual
      modify fun st => { st with constructed := (e, res) :: st.constructed }
      return res

def getInitialArray (root : Array) : BuilderM Term := do
  match (← get).arrays.lookup root with
  | some arrayExpr => return arrayExpr
  | none =>
    -- arrays are unique by name, so the number of arrays makes it unique
    let uniqueName := root.name ++ toString (← get).arrays.length
    let arrayExpr := .arrayVar uniqueName Array.domain Array.range
    let arrayExpr ←
      if root.isConstantArray then b.constantArray root arrayExpr
      else pure arrayExpr
    modify fun st => { st with arrays := st.arrays ++ [(root, arrayExpr)] }
    return arrayExpr

mutual

/-- `construct(e, width_out)`; the cases of `constructActual` are functions of
their own, over what builds the operands. -/
def construct : Expr → Kid
  | .constant c => cached b (.constant c) (pure (constructConstant c, c.width))
  | .notOptimized src => cached b (.notOptimized src) (construct src)
  | .read root head index => cached b (.read root head index) do
      let array ← getArrayForUpdate root head
      let (index, _) ← construct index
      return (.read array index, Array.range)
  | .select c t f => cached b (.select c t f) do
      let (cond, _) ← construct c
      let (tExpr, _) ← construct t
      let (fExpr, width) ← construct f
      return (.ite cond tExpr fExpr, width)
  | .concat l r => cached b (.concat l r) do
      let (res, _) ← construct r
      let (left, _) ← construct l
      return (.concat left res, l.getWidth + r.getWidth)
  | .extract expr offset width => cached b (.extract expr offset width)
      (constructExtract offset width (construct expr))
  | .zext src width => cached b (.zext src width)
      (constructZExt b width (construct src))
  | .sext src width => cached b (.sext src width)
      (constructSExt b width (construct src))
  | .not expr => cached b (.not expr) (constructNot (construct expr))
  | .binary kind l r => cached b (.binary kind l r)
      (constructBinary b kind l r (construct l) (construct r))
  | .cmp kind l r => cached b (.cmp kind l r)
      (constructCmp b kind l (construct l) (construct r))

/-- The array after the updates up to `un`, each cached from the oldest on. -/
def getArrayForUpdate (root : Array) : UpdateNode → BuilderM Term
  | .null => getInitialArray b root
  | .node next index value => do
    match (← get).updateNodes.lookup (root, .node next index value) with
    | some unExpr => return unExpr
    | none =>
      let array ← getArrayForUpdate root next
      let (index', _) ← construct index
      let (value', _) ← construct value
      let unExpr := .write array index' value'
      modify fun st => { st with
        updateNodes := ((root, .node next index value), unExpr) :: st.updateNodes }
      return unExpr

end

def getInitialRead (root : Array) (index : Nat) : BuilderM Term := do
  return .read (← getInitialArray b root) (bvConst32 32 index)

/-- `construct(e)`, which forgets the expressions it has seen if
`autoClearConstructCache`. -/
def constructQuery (autoClearConstructCache : Bool) (e : Expr) : BuilderM Term := do
  let (res, _) ← b.construct e
  if autoClearConstructCache then
    modify fun st => { st with constructed := [] }
  return res

/-- What a solver asks its builder for. -/
inductive Request where
  | construct (autoClearConstructCache : Bool) (e : Expr)
  | initialRead (root : Array) (index : Nat)

def Request.run : Request → BuilderM Unit
  | .construct autoClearConstructCache e => discard (constructQuery b autoClearConstructCache e)
  | .initialRead root index => discard (getInitialRead b root index)

end Builder

end VitalSE
