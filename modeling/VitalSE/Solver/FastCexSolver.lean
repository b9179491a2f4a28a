import VitalSE.Expr.Evaluator
import VitalSE.Solver.CachingSolver
import VitalSE.Solver.ValueRange

/-!
# The fast counterexample solver

For every byte of every array the solver keeps two ranges. The possible one is
a guess: the constraints are pushed down into the expressions, and wherever a
byte is reached its range is narrowed, or replaced by a better guess. The exact
one is meant to hold of every assignment that satisfies the constraints. At the
end the expressions are evaluated with one byte picked from every possible
range, which may show an assignment, and with the bytes whose exact range is a
single value, which may show that there is none.

Where the source asks a range that it knows to be fixed for its value, the
check that the range is not empty is left out.
-/

namespace VitalSE

/-- What is known about the bytes of an array. A possible range is never
empty, so a byte can be picked from it. -/
structure CexObjectData (size : Nat) where
  possibleContents : Fin size → ValueRange
  exactContents : Fin size → ValueRange
  possible_nonempty : ∀ i, (possibleContents i).isEmpty = false

namespace CexObjectData

variable {size : Nat} (cod : CexObjectData size)

def create (size : Nat) : CexObjectData size where
  possibleContents _ := ⟨0, 255⟩
  exactContents _ := ⟨0, 255⟩
  possible_nonempty _ := rfl

def setPossibleValues (i : Fin size) (values : ValueRange)
    (h : values.isEmpty = false) : CexObjectData size where
  possibleContents := Function.update cod.possibleContents i values
  exactContents := cod.exactContents
  possible_nonempty j := by
    rw [Function.update_apply]
    split
    · exact h
    · exact cod.possible_nonempty j

/-- The value is an unsigned char. -/
def setPossibleValue (i : Fin size) (value : BitVec 8) : CexObjectData size :=
  cod.setPossibleValues i (.fixed (value.setWidth 64)) (by
    simp [ValueRange.isEmpty, ValueRange.fixed])

def setExactValues (i : Fin size) (values : ValueRange) : CexObjectData size :=
  { cod with exactContents := Function.update cod.exactContents i values }

/-- Some possible value: the middle of the range, as an unsigned char. -/
def getPossibleValue (i : Fin size) : BitVec 8 :=
  let cvd := cod.possibleContents i
  (cvd.m_min + (cvd.m_max - cvd.m_min) / 2).setWidth 8

end CexObjectData

structure CexData where
  objects : (array : Array) → Option (CexObjectData array.size)

namespace CexData

def empty : CexData := ⟨fun _ => none⟩

def setObjectData (array : Array) (cod : CexObjectData array.size)
    (cd : CexData) : CexData :=
  ⟨Function.update cd.objects array (some cod)⟩

def getObjectData (array : Array) : SolverM CexData (CexObjectData array.size) := do
  match (← get).objects array with
  | some cod => return cod
  | none =>
    modify (setObjectData array (.create array.size))
    return .create array.size

open ExprRangeEvaluator ValueRange

/-! ## Possible values -/

/-- The int `1 << n`, converted to 64 bits. -/
def oneShiftedLeft (n : Nat) : Except Abort (BitVec 64) :=
  if 32 ≤ n then throw (.undefined "shift by the width of the type")
  else return (BitVec.twoPow 32 n).signExtend 64

/-- A read of the byte `i`: a fixed range replaces what was there, as a better
guess, and any other one narrows it if something is left. -/
def possibleByte (array : Array) (i : Nat) (range : ValueRange)
    (cod : CexObjectData array.size) : SolverM CexData Unit :=
  if h : i < array.size then
    if range.isFixed then
      modify (setObjectData array
        (cod.setPossibleValue ⟨i, h⟩ (range.m_min.setWidth 8)))
    else
      let tmp := (cod.possibleContents ⟨i, h⟩).setIntersection range
      if ht : tmp.isEmpty = false then
        modify (setObjectData array (cod.setPossibleValues ⟨i, h⟩ tmp ht))
      else return ()
  else return ()

/-- The range of an operand of a sign extension whose result is in `range`. -/
def signExtendInput (inBits outBits : Nat) (range : ValueRange) :
    Except Abort ValueRange := do
  let low ← oneShiftedLeft (inBits - 1)
  let high := (← Bits64.maxValueOfNBits outBits) -
    (← Bits64.maxValueOfNBits (inBits - 1)) - 1
  let output := range.setDifference ⟨low, high⟩
  output.binaryAnd (fixed (← Bits64.maxValueOfNBits inBits))

/-- The range of `x` when the constant plus `x` is in `range`. -/
def addInput (ce : APInt) (range : ValueRange) : ValueRange :=
  let shift (v : BitVec 64) : BitVec 64 :=
    BitVec.ofNat 64 ((APInt.ofNat ce.width v.toNat).sub ce).toNat
  ⟨shift range.m_min, shift range.m_max⟩

/-- A range in which a value is not the constant: what is above it if it is
zero, and what is below it otherwise. -/
def differentFrom (ce : APInt) : Except Abort ValueRange := do
  let value := BitVec.ofNat 64 ce.toNat
  if value = 0 then return ⟨1, ← Bits64.maxValueOfNBits ce.width⟩
  else return ⟨0, value - 1⟩

def propagatePossibleValues : Expr → ValueRange → SolverM CexData Unit
  | .read root _ index, range => do
    let cod ← getObjectData root
    match index with
    | .constant ce => possibleByte root ce.toNat range cod
    | _ => return ()
  | .select cond trueExpr falseExpr, range => do
    let c ← evaluate cond
    if c.isFixed then
      if c.m_min ≠ 0 then propagatePossibleValues trueExpr range
      else propagatePossibleValues falseExpr range
    else
      propagatePossibleValues trueExpr range
      propagatePossibleValues falseExpr range
  | .concat left right, range => do
    -- Both widths are that of the second operand.
    let lsbWidth := right.getWidth
    let msbWidth := right.getWidth
    propagatePossibleValues left (← range.extract lsbWidth (lsbWidth + msbWidth))
    propagatePossibleValues right (← range.extract 0 lsbWidth)
  | .zext src _, range => do
    propagatePossibleValues src (range.setIntersection (← full src.getWidth))
  | .sext src width, range => do
    propagatePossibleValues src (← signExtendInput src.getWidth width range)
  | .binary .add left right, range =>
    match left with
    | .constant ce =>
      if ce.width ≤ 64 then
        if range.isEmpty then return ()
        else
          let nrange := addInput ce range
          if nrange.isEmpty then return ()
          else propagatePossibleValues right nrange
      else return ()
    | _ => return ()
  | .binary .and left right, range => do
    if left.getWidth = 1 && range.isFixed then
      let l ← evaluate left
      let r ← evaluate right
      if range.m_min = 0 then
        if l.mustBe 0 || r.mustBe 0 then return ()
        else
          propagatePossibleValues left (fixed 0)
          -- see if that worked
          if (← evaluate left).mustBe 1 then return ()
          else propagatePossibleValues right (fixed 0)
      else
        (if l.mustBe 1 then pure ()
          else propagatePossibleValues left (fixed 1))
        (if r.mustBe 1 then pure ()
          else propagatePossibleValues right (fixed 1))
    else return ()
  | .binary .or left right, range => do
    if left.getWidth = 1 && range.isFixed then
      let l ← evaluate left
      let r ← evaluate right
      if range.m_min ≠ 0 then
        if l.mustBe 1 || r.mustBe 1 then return ()
        else
          propagatePossibleValues left (fixed 1)
          -- see if that worked
          if (← evaluate left).mustBe 1 then return ()
          else propagatePossibleValues right (fixed 1)
      else
        (if l.mustBe 0 then pure ()
          else propagatePossibleValues left (fixed 0))
        (if r.mustBe 0 then pure ()
          else propagatePossibleValues right (fixed 0))
    else return ()
  | .cmp .eq left right, range => do
    if range.isFixed then
      match left with
      | .constant ce =>
        if ce.width ≤ 64 then
          if range.m_min ≠ 0 then
            propagatePossibleValues right (fixed (BitVec.ofNat 64 ce.toNat))
          else propagatePossibleValues right (← differentFrom ce)
        else return ()
      | _ => return ()
    else return ()
  | .not expr, range =>
    if expr.getWidth = 1 && range.isFixed then
      propagatePossibleValues expr (fixed (if range.m_min = 0 then 1 else 0))
    else return ()
  | .cmp .ult left right, range => do
    if range.isFixed then
      let l ← evaluate left
      let r ← evaluate right
      let maxValue ← Bits64.maxValueOfNBits right.getWidth
      if l.isFixed then
        if range.m_min ≠ 0 then
          propagatePossibleValues right ⟨l.m_min + 1, maxValue⟩
        else propagatePossibleValues right ⟨0, l.m_min⟩
      else if r.isFixed then
        if range.m_min ≠ 0 then
          propagatePossibleValues left ⟨0, r.m_min - 1⟩
        else propagatePossibleValues left ⟨r.m_min, maxValue⟩
      else return ()
    else return ()
  | .cmp .ule left right, range => do
    if range.isFixed then
      let l ← evaluate left
      let r ← evaluate right
      let maxValue ← Bits64.maxValueOfNBits right.getWidth
      if l.isFixed then
        if range.m_min ≠ 0 then
          propagatePossibleValues right ⟨l.m_min, maxValue⟩
        else propagatePossibleValues right ⟨0, l.m_min - 1⟩
      else if r.isFixed then
        if range.m_min ≠ 0 then
          propagatePossibleValues left ⟨0, r.m_min⟩
        else propagatePossibleValues left ⟨r.m_min + 1, maxValue⟩
      else return ()
    else return ()
  | .cmp .ne _ _, _ | .cmp .ugt _ _, _ | .cmp .uge _ _, _ | .cmp .sgt _ _, _
  | .cmp .sge _ _, _ =>
    throw (.assertion "invalid expressions (uncanonicalized")
  | _, _ => return ()

/-! ## Exact values -/

/-! Narrowing the range of a byte at either end has to leave something. -/

def narrowMin (cvd range : ValueRange) : Except Abort ValueRange := do
  if (← cvd.min) < (← range.min) then
    if (← cvd.max) < (← range.min) then
      throw (.assertion "range.min() <= cvd.max()")
    else return ⟨range.m_min, cvd.m_max⟩
  else return cvd

def narrowMax (cvd range : ValueRange) : Except Abort ValueRange := do
  if (← range.max) < (← cvd.max) then
    if (← range.max) < (← cvd.min) then
      throw (.assertion "range.max() >= cvd.min()")
    else return ⟨cvd.m_min, range.m_max⟩
  else return cvd

/-- The initial contents of the array at a position in the range `index`. The
position is not checked against the size of the array. -/
def exactByte (array : Array) (index range : ValueRange) : SolverM CexData Unit := do
  if index.isFixed then
    if array.isConstantArray then
      if index.m_min.toNat < array.constantValues.length then return ()
      else throw (.undefined "read beyond the end of the constant values")
    else
      let cod ← getObjectData array
      if h : index.m_min.toNat < array.size then
        let i : Fin array.size := ⟨index.m_min.toNat, h⟩
        let cvd ← narrowMin (cod.exactContents i) range
        let cvd ← narrowMax cvd range
        modify (setObjectData array (cod.setExactValues i cvd))
      else throw (.undefined "access beyond the end of the exact contents")
  else return ()

mutual

def propagateExactValues : Expr → ValueRange → SolverM CexData Unit
  | .read root head index, range => do
    let _ ← getObjectData root
    let i ← evaluate index
    propagateExactUpdates root index i range head
  | .cmp .eq left right, range =>
    if range.isFixed then
      match left with
      | .constant ce =>
        if ce.width ≤ 64 then
          if range.m_min ≠ 0 then
            propagateExactValues right (fixed (BitVec.ofNat 64 ce.toNat))
          else if right.getWidth = 1 then
            propagateExactValues right (fixed (if ce.isZero then 1 else 0))
          else return ()
        else return ()
      | _ => return ()
    else return ()
  | .not expr, range =>
    if expr.getWidth = 1 && range.isFixed then
      propagateExactValues expr (fixed (if range.m_min = 0 then 1 else 0))
    else return ()
  | .cmp .ne _ _, _ | .cmp .ugt _ _, _ | .cmp .uge _ _, _ | .cmp .sgt _ _, _
  | .cmp .sge _ _, _ =>
    throw (.assertion "invalid expressions (uncanonicalized")
  | _, _ => return ()

/-- The loop over the updates: the first one that may be at the position ends
it, and is the one that is read if that is certain. -/
def propagateExactUpdates (root : Array) (index : Expr) (i range : ValueRange) :
    UpdateNode → SolverM CexData Unit
  | .null => exactByte root i range
  | .node next index' value => do
    let ui ← evaluate index'
    if !ui.mayEqual i then propagateExactUpdates root index i range next
    else if ui.mustEqual i || index = index' then
      propagateExactValues value range
    else return ()

end

/-! ## Evaluation -/

variable (constArrayOpt : Bool)

/-- `CexPossibleEvaluator::getInitialValue`. A byte that nothing is known about
is 127. -/
def possibleInitialValue (cd : CexData) (array : Array) (index : Nat) : Expr :=
  if h : index < array.size then
    .constant ⟨8, match cd.objects array with
      | none => 127
      | some cod => cod.getPossibleValue ⟨index, h⟩⟩
  else ReadExpr.create constArrayOpt array .null (Expr.const index Array.domain)

/-- `CexExactEvaluator::getInitialValue`. -/
def exactInitialValue (cd : CexData) (array : Array) (index : Nat) : Expr :=
  let read := ReadExpr.create constArrayOpt array .null
    (Expr.const index Array.domain)
  if h : index < array.size then
    match cd.objects array with
    | none => read
    | some cod =>
      let cvd := cod.exactContents ⟨index, h⟩
      if cvd.isFixed then .constant ⟨8, cvd.m_min.setWidth 8⟩ else read
  else read

def evaluatePossible (e : Expr) : SolverM CexData Expr := do
  match ExprEvaluator.evaluate constArrayOpt
      (possibleInitialValue constArrayOpt (← get)) e with
  | some r => return r
  | none => throw .outOfFuel

def evaluateExact (e : Expr) : SolverM CexData Expr := do
  match ExprEvaluator.evaluate constArrayOpt
      (exactInitialValue constArrayOpt (← get)) e with
  | some r => return r
  | none => throw .outOfFuel

end CexData

def Expr.isTrue (e : Expr) : Except Abort Bool :=
  if e.getWidth ≠ 1 then throw (.assertion "Invalid isTrue() call!")
  else match e with
    | .constant ce => return ConstantExpr.isTrue ce
    | _ => return false

def Expr.isFalse (e : Expr) : Except Abort Bool :=
  if e.getWidth ≠ 1 then throw (.assertion "Invalid isFalse() call!")
  else match e with
    | .constant ce => return ConstantExpr.isFalse ce
    | _ => return false

namespace FastCexSolver

open CexData ValueRange

variable (constArrayOpt : Bool)

/-- The first loop of `propagateValues`. -/
def propagateConstraints : List Expr → SolverM CexData Unit
  | [] => return ()
  | c :: cs => do
    propagatePossibleValues c (fixed 1)
    propagateExactValues c (fixed 1)
    propagateConstraints cs

/-! The tests on evaluated expressions. -/

def possiblyTrue (e : Expr) : SolverM CexData Bool := do
  (← evaluatePossible constArrayOpt e).isTrue

def possiblyFalse (e : Expr) : SolverM CexData Bool := do
  (← evaluatePossible constArrayOpt e).isFalse

def exactlyTrue (e : Expr) : SolverM CexData Bool := do
  (← evaluateExact constArrayOpt e).isTrue

def exactlyFalse (e : Expr) : SolverM CexData Bool := do
  (← evaluateExact constArrayOpt e).isFalse

/-- The second loop of `propagateValues` and what follows it. -/
def checkConstraints : List Expr → Bool → SolverM CexData (Option Bool)
  | [], hasSatisfyingAssignment =>
    return if hasSatisfyingAssignment then some false else none
  | c :: cs, hasSatisfyingAssignment => do
    let satisfied ←
      (if hasSatisfyingAssignment then possiblyTrue constArrayOpt c else pure false)
    if ← exactlyFalse constArrayOpt c then return some true
    else checkConstraints cs satisfied

/-- Whether the query is proved valid or has a satisfying assignment, if either
is known. -/
def propagateValues (query : Query) (checkExpr : Bool) :
    SolverM CexData (Option Bool) := do
  propagateConstraints query.constraints
  if checkExpr then
    propagatePossibleValues query.expr (fixed 0)
    propagateExactValues query.expr (fixed 0)
    let falsified ← possiblyFalse constArrayOpt query.expr
    if ← exactlyTrue constArrayOpt query.expr then return some true
    else checkConstraints constArrayOpt query.constraints falsified
  else checkConstraints constArrayOpt query.constraints true

def computeTruth (query : Query) : Except Abort PartialValidity := do
  match (← (propagateValues constArrayOpt query true).run .empty).1 with
  | none => return .none
  | some true => return .mustBeTrue
  | some false => return .mayBeFalse

/-- The answer is `none` when the propagation decides nothing, when it proves
the constraints unsatisfiable, and when the expression does not evaluate to a
constant. -/
def computeValue (query : Query) : Except Abort (Option Expr) := do
  let (result, cd) ← (propagateValues constArrayOpt query false).run .empty
  match result with
  | some false =>
    let (value, _) ← (evaluatePossible constArrayOpt query.expr).run cd
    return if value.isConstant then some value else none
  | _ => return none

/-- The bytes of an array at the given positions, or `none` if one of them is
not known. -/
def initialBytes (cd : CexData) (array : Array) :
    List Nat → Except Abort (Option (List (BitVec 8)))
  | [] => return some []
  | i :: is => do
    let read := ReadExpr.create constArrayOpt array .null
      (Expr.const i Array.domain)
    match (← (evaluatePossible constArrayOpt read).run cd).1 with
    | .constant ce =>
      return (← initialBytes cd array is).map (ce.bits.setWidth 8 :: ·)
    | _ => return none

/-- The bytes of all requested arrays. -/
def initialValues (cd : CexData) :
    List Array → Except Abort (Option (List (List (BitVec 8))))
  | [] => return some []
  | array :: arrays => do
    match ← initialBytes constArrayOpt cd array (List.range array.size) with
    | none => return none
    | some data =>
      return (← initialValues cd arrays).map (data :: ·)

/-- The second answer is `some none` when there is no solution. -/
def computeInitialValues (query : Query) (objects : List Array) :
    Except Abort (Option (Option (List (List (BitVec 8))))) := do
  let (result, cd) ← (propagateValues constArrayOpt query true).run .empty
  match result with
  | none => return none
  | some true => return some none
  | some false =>
    return (← initialValues constArrayOpt cd objects).map some

end FastCexSolver

end VitalSE
