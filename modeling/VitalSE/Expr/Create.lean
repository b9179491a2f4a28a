import VitalSE.Expr.Syntax

/-!
# The smart constructors

Every expression the executor builds goes through a `create`, which folds
constants, pulls a constant to the left of a sum, resolves reads against
updates and turns operations on single bits into boolean connectives. The
functions here follow the source function by function and branch by branch.

Three groups of them call each other, and the order of the definitions says
why each recursion ends. An equality against a constant only ever descends
into the other operand. A sum with a constant operand does too, passing
between addition and subtraction, so these are structural; the general sum
strips a constant from one operand, recurses on what is left, and hands the
result to the constant case. Extraction and concatenation call each other:
extracting from a concatenation may merge two extracts again, and what it then
extracts from is smaller, which the definition has to carry along as a bound.

The option that lets an equality with a read of a constant array become a
disjunction over its positions is the parameter `constArrayOpt`.
-/

namespace VitalSE

/-! ## Constants -/

namespace ConstantExpr

def isTrue (c : APInt) : Bool := c.width == 1 && !c.isZero

def isFalse (c : APInt) : Bool := c.width == 1 && c.isZero

def Concat (c rhs : APInt) : APInt :=
  let w := c.width + rhs.width
  ((c.zextOrTrunc w).shlBy rhs.width).or (rhs.zextOrTrunc w)

def Extract (c : APInt) (offset w : Nat) : APInt :=
  (c.ashrBy offset).zextOrTrunc w

/-- `Add`, `Sub` and so on: the operation of each kind on two constants. -/
def binary : BinaryKind → APInt → APInt → APInt
  | .add => APInt.add
  | .sub => APInt.sub
  | .mul => APInt.mul
  | .udiv => APInt.udiv
  | .sdiv => APInt.sdiv
  | .urem => APInt.urem
  | .srem => APInt.srem
  | .and => APInt.and
  | .or => APInt.or
  | .xor => APInt.xor
  | .shl => APInt.shl
  | .lshr => APInt.lshr
  | .ashr => APInt.ashr

/-- `Eq`, `Ne`, `Ult` and so on. -/
def cmp : CmpKind → APInt → APInt → APInt
  | .eq, a, b => a.eq b
  | .ne, a, b => (a.eq b).not
  | .ult, a, b => a.ult b
  | .ule, a, b => a.ule b
  | .ugt, a, b => b.ult a
  | .uge, a, b => b.ule a
  | .slt, a, b => a.slt b
  | .sle, a, b => a.sle b
  | .sgt, a, b => b.slt a
  | .sge, a, b => b.sle a

end ConstantExpr

/-- The constant `n` at width `w`. -/
def Expr.const (n w : Nat) : Expr := .constant (APInt.ofNat w n)

/-! ## The shape shared by the binary constructors

`BCREATE_R` folds two constants, sends one constant operand to the partial
constructors and the rest to the general one. Its first half, with the left
operand already known to be constant, is named, because the reassociating
constructors call it with a constant they have just pulled out. -/

def createL (k : BinaryKind) (partialR : APInt → Expr → Expr) (cl : APInt)
    (r : Expr) : Expr :=
  match r with
  | .constant cr => .constant (ConstantExpr.binary k cl cr)
  | _ => partialR cl r

def createR (k : BinaryKind) (partialL : Expr → APInt → Expr) (l : Expr)
    (cr : APInt) : Expr :=
  match l with
  | .constant cl => .constant (ConstantExpr.binary k cl cr)
  | _ => partialL l cr

def bcreateR (k : BinaryKind) (partialL : Expr → APInt → Expr)
    (partialR : APInt → Expr → Expr) (create : Expr → Expr → Expr)
    (l r : Expr) : Expr :=
  match l with
  | .constant cl => createL k partialR cl r
  | _ => match r with
    | .constant cr => partialL l cr
    | _ => create l r

def bcreate (k : BinaryKind) (create : Expr → Expr → Expr) (l r : Expr) : Expr :=
  match l, r with
  | .constant cl, .constant cr => .constant (ConstantExpr.binary k cl cr)
  | _, _ => create l r

def cmpcreate (k : CmpKind) (create : Expr → Expr → Expr) (l r : Expr) : Expr :=
  match l, r with
  | .constant cl, .constant cr => .constant (ConstantExpr.cmp k cl cr)
  | _, _ => create l r

/-! ## Conjunction and disjunction -/

namespace AndExpr

def createPartial (l : Expr) (cr : APInt) : Expr :=
  if cr.isAllOnes then l
  else if cr.isZero then .constant cr
  else .binary .and l (.constant cr)

def createPartialR (cl : APInt) (r : Expr) : Expr := createPartial r cl

def create : Expr → Expr → Expr :=
  bcreateR .and createPartial createPartialR (.binary .and)

end AndExpr

namespace OrExpr

def createPartial (l : Expr) (cr : APInt) : Expr :=
  if cr.isAllOnes then .constant cr
  else if cr.isZero then l
  else .binary .or l (.constant cr)

def createPartialR (cl : APInt) (r : Expr) : Expr := createPartial r cl

def create : Expr → Expr → Expr :=
  bcreateR .or createPartial createPartialR (.binary .or)

end OrExpr

/-! ## Equality -/

variable (constArrayOpt : Bool)

namespace EqExpr

/-- `EqExpr_create`. -/
def createEq (l r : Expr) : Expr :=
  if l = r then Expr.const 1 1 else .cmp .eq l r

/-- `create` with a constant right operand, for a caller that has already
computed what the partial constructor gives. -/
def createR (partialL : Expr) (l : Expr) (cr : APInt) : Expr :=
  match l with
  | .constant cl => .constant (ConstantExpr.cmp .eq cl cr)
  | _ => partialL

/-- The loop of `TryConstArrayOpt` over the values of the array from position
`i` on; `none` stands for the early return after a hundred matches. `eqIndex i`
is the equality of the read's index with `i`. -/
def constArrayLoop (eqIndex : Nat → Expr) (cl : APInt) :
    List (BitVec 8) → (i numMatches : Nat) → (res : Expr) → Option Expr
  | [], _, _, res => some res
  | v :: vs, i, numMatches, res =>
    if cl = ⟨8, v⟩ then
      if numMatches + 1 > 100 then none
      else constArrayLoop eqIndex cl vs (i + 1) (numMatches + 1)
        (OrExpr.create res (eqIndex i))
    else constArrayLoop eqIndex cl vs (i + 1) numMatches res

/-- `TryConstArrayOpt` on `cl` and the read of `root` through `head`. -/
def tryConstArrayOpt (eqIndex : Nat → Expr) (cl : APInt) (root : Array)
    (head : UpdateNode) (index : Expr) : Expr :=
  let rd := Expr.read root head index
  if root.isSymbolicArray || head.getSize != 0 then createEq (.constant cl) rd
  else match constArrayLoop eqIndex cl root.constantValues 0 0
      (Expr.const 0 1) with
    | some res => res
    | none => createEq (.constant cl) rd

def createPartialR (cl : APInt) (r : Expr) : Expr :=
  if cl.width = 1 then
    if ConstantExpr.isTrue cl then r
    else match r with
      | .cmp .eq (.constant ce) right =>
        -- 0 == (0 == A) => A
        if ConstantExpr.isFalse ce then right
        else createEq (.constant cl) r
      | .binary .or left right =>
        -- not (or a b) => and (not a) (not b)
        AndExpr.create
          (createR (createPartialR (APInt.ofNat left.getWidth 0) left)
            left (APInt.ofNat left.getWidth 0))
          (createR (createPartialR (APInt.ofNat right.getWidth 0) right)
            right (APInt.ofNat right.getWidth 0))
      | _ => createEq (.constant cl) r
  else match r with
    | .sext src _ =>
      let trunc := cl.zextOrTrunc src.getWidth
      if cl = trunc.sextOrTrunc cl.width then
        createR (createPartialR trunc src) src trunc
      else Expr.const 0 1
    | .zext src _ =>
      let trunc := cl.zextOrTrunc src.getWidth
      if cl = trunc.zextOrTrunc cl.width then
        createR (createPartialR trunc src) src trunc
      else Expr.const 0 1
    | .binary .add (.constant c) right =>
      -- c0 = c1 + b => c0 - c1 = b
      createPartialR (cl.sub c) right
    | .binary .sub (.constant c) right =>
      -- c0 = c1 - b => c1 - c0 = b
      createPartialR (c.sub cl) right
    | .read root head index =>
      if constArrayOpt then
        tryConstArrayOpt
          (fun i => createR (createPartialR (APInt.ofNat index.getWidth i) index)
            index (APInt.ofNat index.getWidth i))
          cl root head index
      else createEq (.constant cl) r
    | _ => createEq (.constant cl) r

def createPartial (l : Expr) (cr : APInt) : Expr :=
  createPartialR constArrayOpt cr l

def create (l r : Expr) : Expr :=
  match l with
  | .constant cl => match r with
    | .constant cr => .constant (ConstantExpr.cmp .eq cl cr)
    | _ => createPartialR constArrayOpt cl r
  | _ => match r with
    | .constant cr => createPartial constArrayOpt l cr
    | _ => createEq l r

end EqExpr

def Expr.createIsZero (e : Expr) : Expr :=
  EqExpr.create constArrayOpt e (Expr.const 0 e.getWidth)

/-! ## Exclusive or, addition and subtraction -/

namespace XorExpr

def createPartialR (cl : APInt) (r : Expr) : Expr :=
  if cl.isZero then r
  else if cl.width = 1 then
    EqExpr.createPartial constArrayOpt r (APInt.ofNat 1 0)
  else .binary .xor (.constant cl) r

def createPartial (l : Expr) (cr : APInt) : Expr :=
  createPartialR constArrayOpt cr l

def create : Expr → Expr → Expr :=
  bcreateR .xor (createPartial constArrayOpt) (createPartialR constArrayOpt)
    (.binary .xor)

end XorExpr

mutual

def AddExpr.createPartialR (cl : APInt) (r : Expr) : Expr :=
  if cl.width = 1 then XorExpr.createPartialR constArrayOpt cl r
  else if cl.isZero then r
  else match r with
    | .binary .add (.constant c) y =>
      -- A + (B + c) == (A + B) + c
      createL .add (fun k _ => AddExpr.createPartialR k y)
        (cl.add c) y
    | .binary .sub (.constant c) y =>
      -- A + (B - c) == (A + B) - c
      createL .sub (fun k _ => SubExpr.createPartialR k y)
        (cl.add c) y
    | _ => .binary .add (.constant cl) r

def SubExpr.createPartialR (cl : APInt) (r : Expr) : Expr :=
  if cl.width = 1 then XorExpr.createPartialR constArrayOpt cl r
  else match r with
    | .binary .add (.constant c) y =>
      -- A - (B + c) == (A - B) - c
      createL .sub (fun k _ => SubExpr.createPartialR k y)
        (cl.sub c) y
    | .binary .sub (.constant c) y =>
      -- A - (B - c) == (A - B) + c
      createL .add (fun k _ => AddExpr.createPartialR k y)
        (cl.sub c) y
    | _ => .binary .sub (.constant cl) r

end

def AddExpr.createPartial (l : Expr) (cr : APInt) : Expr :=
  AddExpr.createPartialR constArrayOpt cr l

/-- `l - c` is `l + (-c)`. -/
def SubExpr.createPartial (l : Expr) (cr : APInt) : Expr :=
  AddExpr.createPartial constArrayOpt l ((APInt.ofNat cr.width 0).sub cr)

/-- `AddExpr::create` with a constant left operand. -/
def AddExpr.createL : APInt → Expr → Expr :=
  VitalSE.createL .add (AddExpr.createPartialR constArrayOpt)

/-- `SubExpr::create` with a constant left operand. -/
def SubExpr.createL : APInt → Expr → Expr :=
  VitalSE.createL .sub (SubExpr.createPartialR constArrayOpt)

/-- `SubExpr::create` with a constant right operand. -/
def SubExpr.createR : Expr → APInt → Expr :=
  VitalSE.createR .sub (SubExpr.createPartial constArrayOpt)

mutual

def AddExpr.create (l r : Expr) : Expr :=
  match l with
  | .constant cl => AddExpr.createL constArrayOpt cl r
  | l => match r with
    | .constant cr => AddExpr.createPartial constArrayOpt l cr
    | r => AddExpr.createAdd l r
termination_by 2 * (sizeOf l + sizeOf r) + 1

/-- `AddExpr_create`. -/
def AddExpr.createAdd (l r : Expr) : Expr :=
  if l.getWidth = 1 then .binary .xor l r
  else match l with
    | .binary .add (.constant k) a => -- (k+a)+b = k+(a+b)
        AddExpr.createL constArrayOpt k (AddExpr.create a r)
    | .binary .sub (.constant k) a => -- (k-a)+b = k+(b-a)
        AddExpr.createL constArrayOpt k (SubExpr.create r a)
    | l => match r with
      | .binary .add (.constant k) b => -- a+(k+b) = k+(a+b)
          AddExpr.createL constArrayOpt k (AddExpr.create l b)
      | .binary .sub (.constant k) b => -- a+(k-b) = k+(a-b)
          AddExpr.createL constArrayOpt k (SubExpr.create l b)
      | r => .binary .add l r
termination_by 2 * (sizeOf l + sizeOf r)

def SubExpr.create (l r : Expr) : Expr :=
  match l with
  | .constant cl => SubExpr.createL constArrayOpt cl r
  | l => match r with
    | .constant cr => SubExpr.createPartial constArrayOpt l cr
    | r => SubExpr.createSub l r
termination_by 2 * (sizeOf l + sizeOf r) + 1

/-- `SubExpr_create`. -/
def SubExpr.createSub (l r : Expr) : Expr :=
  if l.getWidth = 1 then .binary .xor l r
  else if l = r then Expr.const 0 l.getWidth
  else match l with
    | .binary .add (.constant k) a => -- (k+a)-b = k+(a-b)
        AddExpr.createL constArrayOpt k (SubExpr.create a r)
    | .binary .sub (.constant k) a => -- (k-a)-b = k-(a+b)
        SubExpr.createL constArrayOpt k (AddExpr.create a r)
    | l => match r with
      | .binary .add (.constant k) b => -- a-(k+b) = (a-b)-k
          SubExpr.createR constArrayOpt (SubExpr.create l b) k
      | .binary .sub (.constant k) b => -- a-(k-b) = (a+b)-k
          SubExpr.createR constArrayOpt (AddExpr.create l b) k
      | r => .binary .sub l r
termination_by 2 * (sizeOf l + sizeOf r)

end

/-! ## The other arithmetic -/

namespace MulExpr

def createPartialR (cl : APInt) (r : Expr) : Expr :=
  if cl.width = 1 then AndExpr.createPartialR cl r
  else if cl.isOne then r
  else if cl.isZero then .constant cl
  else .binary .mul (.constant cl) r

def createPartial (l : Expr) (cr : APInt) : Expr := createPartialR cr l

def create : Expr → Expr → Expr :=
  bcreateR .mul createPartial createPartialR fun l r =>
    if l.getWidth = 1 then .binary .and l r else .binary .mul l r

end MulExpr

/-- A division at width one: the divisor must be 1. -/
def divCreate (k : BinaryKind) : Expr → Expr → Expr :=
  bcreate k fun l r => if l.getWidth = 1 then l else .binary k l r

def UDivExpr.create : Expr → Expr → Expr := divCreate .udiv

def SDivExpr.create : Expr → Expr → Expr := divCreate .sdiv

/-- A remainder at width one: the divisor must be 1. -/
def remCreate (k : BinaryKind) : Expr → Expr → Expr :=
  bcreate k fun l r =>
    if l.getWidth = 1 then Expr.const 0 1 else .binary k l r

def URemExpr.create : Expr → Expr → Expr := remCreate .urem

def SRemExpr.create : Expr → Expr → Expr := remCreate .srem

/-- A shift that fills with zeros: at width one, `l & !r`. -/
def shiftCreate (k : BinaryKind) (constArrayOpt : Bool) : Expr → Expr → Expr :=
  bcreate k fun l r =>
    if l.getWidth = 1 then
      AndExpr.create l (Expr.createIsZero constArrayOpt r)
    else .binary k l r

def ShlExpr.create : Bool → Expr → Expr → Expr := shiftCreate .shl

def LShrExpr.create : Bool → Expr → Expr → Expr := shiftCreate .lshr

def AShrExpr.create : Expr → Expr → Expr :=
  bcreate .ashr fun l r => if l.getWidth = 1 then l else .binary .ashr l r

/-! ## Comparisons -/

def NeExpr.create (l r : Expr) : Expr :=
  EqExpr.create constArrayOpt (Expr.const 0 1) (EqExpr.create constArrayOpt l r)

def UltExpr.create : Expr → Expr → Expr :=
  cmpcreate .ult fun l r =>
    if l.getWidth = 1 then -- !l && r
      AndExpr.create (Expr.createIsZero constArrayOpt l) r
    else .cmp .ult l r

def UleExpr.create : Expr → Expr → Expr :=
  cmpcreate .ule fun l r =>
    if l.getWidth = 1 then -- !(l && !r)
      OrExpr.create (Expr.createIsZero constArrayOpt l) r
    else .cmp .ule l r

def SltExpr.create : Expr → Expr → Expr :=
  cmpcreate .slt fun l r =>
    if l.getWidth = 1 then -- l && !r
      AndExpr.create l (Expr.createIsZero constArrayOpt r)
    else .cmp .slt l r

def SleExpr.create : Expr → Expr → Expr :=
  cmpcreate .sle fun l r =>
    if l.getWidth = 1 then -- !(!l && r)
      OrExpr.create l (Expr.createIsZero constArrayOpt r)
    else .cmp .sle l r

def UgtExpr.create (l r : Expr) : Expr :=
  UltExpr.create constArrayOpt r l

def UgeExpr.create (l r : Expr) : Expr :=
  UleExpr.create constArrayOpt r l

def SgtExpr.create (l r : Expr) : Expr :=
  SltExpr.create constArrayOpt r l

def SgeExpr.create (l r : Expr) : Expr :=
  SleExpr.create constArrayOpt r l

/-! ## Extraction and concatenation -/

/-- `ConcatExpr::create`, over the extraction it calls on two adjacent
extracts of one expression. -/
def ConcatExpr.createWith (extract : Expr → Nat → Nat → Expr) (l r : Expr) : Expr :=
  match l, r with
  | .constant cl, .constant cr => .constant (ConstantExpr.Concat cl cr)
  | .extract el ol wl, .extract er or' wr =>
    if el = er ∧ or' + wr = ol then extract el or' (wl + wr)
    else .concat l r
  | _, _ => .concat l r

/-- How far `ExtractExpr::create` can descend into an expression. -/
def Expr.concatSize : Expr → Nat
  | .concat left right => left.concatSize + right.concatSize + 1
  | .extract expr _ _ => expr.concatSize + 1
  | _ => 1

/-- `ExtractExpr::create` with a bound on the recursion. -/
def ExtractExpr.createFuel : Nat → Expr → Nat → Nat → Expr
  | 0, expr, off, w => .extract expr off w
  | n + 1, expr, off, w =>
    if w = expr.getWidth then expr
    else match expr with
      | .constant c => .constant (ConstantExpr.Extract c off w)
      | .concat left right =>
        let rw := right.getWidth
        -- the extract skips the right side of the concat
        if rw ≤ off then createFuel n left (off - rw) w
        -- the extract skips the left side of the concat
        else if off + w ≤ rw then createFuel n right off w
        -- E(C(x,y)) = C(E(x), E(y))
        else ConcatExpr.createWith (createFuel n)
          (createFuel n left 0 (off + w - rw))
          (createFuel n right off (rw - off))
      | _ => .extract expr off w

def ExtractExpr.create (expr : Expr) (off w : Nat) : Expr :=
  ExtractExpr.createFuel expr.concatSize expr off w

def ConcatExpr.create : Expr → Expr → Expr :=
  ConcatExpr.createWith ExtractExpr.create

/-! The bound is never met: an extraction from `e` with at least
`e.concatSize` steps does not depend on their number. What makes the merged
extract smaller is that an extract `createFuel` returns is taken from a part of
what it was given. -/

def Expr.innerSize : Expr → Nat
  | .extract expr _ _ => expr.concatSize
  | _ => 0

theorem Expr.innerSize_le (e : Expr) : e.innerSize ≤ e.concatSize := by
  cases e <;> simp [Expr.innerSize, Expr.concatSize]

theorem Expr.concatSize_pos (e : Expr) : 0 < e.concatSize := by
  cases e <;> simp [Expr.concatSize]

/-- The extraction a concatenation calls is on the inside of its left
operand. -/
theorem ConcatExpr.createWith_congr {f g : Expr → Nat → Nat → Expr} {l r : Expr} {b : Nat}
    (h : ∀ e off w, e.concatSize ≤ l.innerSize →
      f e off w = g e off w ∧ (f e off w).innerSize ≤ b) :
    createWith f l r = createWith g l r ∧ (createWith f l r).innerSize ≤ b := by
  unfold createWith
  split
  · exact ⟨rfl, Nat.zero_le _⟩
  · split
    · exact h _ _ _ le_rfl
    · exact ⟨rfl, Nat.zero_le _⟩
  · exact ⟨rfl, Nat.zero_le _⟩

theorem ExtractExpr.createFuel_congr (m : Nat) : ∀ {e : Expr}
    {n n' off w : Nat}, e.concatSize ≤ m → e.concatSize ≤ n →
    e.concatSize ≤ n' →
    createFuel n e off w = createFuel n' e off w ∧
      (createFuel n e off w).innerSize ≤ e.concatSize := by
  induction m with
  | zero =>
    intro e n n' off w h
    have := e.concatSize_pos
    omega
  | succ m ih =>
    intro e n n' off w hm hn hn'
    have hpos := e.concatSize_pos
    obtain ⟨a, rfl⟩ : ∃ a, n = a + 1 := ⟨n - 1, by omega⟩
    obtain ⟨b, rfl⟩ : ∃ b, n' = b + 1 := ⟨n' - 1, by omega⟩
    by_cases hw : w = e.getWidth
    · rw [createFuel.eq_def, createFuel.eq_def (b + 1)]
      simp only [if_pos hw]
      exact ⟨trivial, e.innerSize_le⟩
    cases e with
    | concat left right =>
      simp only [Expr.concatSize] at hm hn hn' ⊢
      simp only [createFuel, if_neg hw]
      have hl : ∀ off w, createFuel a left off w = createFuel b left off w ∧
          (createFuel a left off w).innerSize ≤ left.concatSize :=
        fun off w => ih (by omega) (by omega) (by omega)
      have hr : ∀ off w,
          createFuel a right off w = createFuel b right off w ∧
          (createFuel a right off w).innerSize ≤ right.concatSize :=
        fun off w => ih (by omega) (by omega) (by omega)
      split
      · exact ⟨(hl _ _).1, (hl _ _).2.trans (by omega)⟩
      · split
        · exact ⟨(hr _ _).1, (hr _ _).2.trans (by omega)⟩
        · rw [← (hl _ _).1, ← (hr _ _).1]
          apply ConcatExpr.createWith_congr
          intro e off' w' he
          have hle := he.trans (hl _ _).2
          obtain ⟨h1, h2⟩ : createFuel a e off' w' = createFuel b e off' w' ∧
              (createFuel a e off' w').innerSize ≤ e.concatSize :=
            ih (by omega) (by omega) (by omega)
          exact ⟨h1, h2.trans (by omega)⟩
    | _ => simp [createFuel, hw, Expr.innerSize, Expr.concatSize]

theorem ExtractExpr.createFuel_eq_create {e : Expr} {n off w : Nat}
    (h : e.concatSize ≤ n) : createFuel n e off w = create e off w :=
  (createFuel_congr n h h le_rfl).1

theorem ExtractExpr.innerSize_create (e : Expr) (off w : Nat) :
    (create e off w).innerSize ≤ e.concatSize :=
  (createFuel_congr e.concatSize le_rfl le_rfl le_rfl).2

/-- The recursion of the source. -/
theorem ExtractExpr.create_eq (expr : Expr) (off w : Nat) : ExtractExpr.create expr off w =
      if w = expr.getWidth then expr
      else match expr with
        | .constant c => .constant (ConstantExpr.Extract c off w)
        | .concat left right =>
          let rw := right.getWidth
          if rw ≤ off then ExtractExpr.create left (off - rw) w
          else if off + w ≤ rw then ExtractExpr.create right off w
          else ConcatExpr.create (ExtractExpr.create left 0 (off + w - rw))
            (ExtractExpr.create right off (rw - off))
        | _ => .extract expr off w := by
  cases expr with
  | concat left right =>
    rw [ExtractExpr.create, Expr.concatSize, createFuel]
    have hl : ∀ off w, createFuel (left.concatSize + right.concatSize) left
        off w = create left off w :=
      fun off w => createFuel_eq_create (by omega)
    have hr : ∀ off w, createFuel (left.concatSize + right.concatSize) right
        off w = create right off w :=
      fun off w => createFuel_eq_create (by omega)
    simp only [hl, hr, ConcatExpr.create]
    congr 3
    refine (ConcatExpr.createWith_congr (b := left.concatSize) ?_).1
    intro e off' w' he
    have hle := he.trans (innerSize_create left _ _)
    exact ⟨createFuel_eq_create (by omega), by
      rw [createFuel_eq_create (by omega)]
      exact (innerSize_create _ _ _).trans hle⟩
  | extract e => simp [ExtractExpr.create, Expr.concatSize, createFuel]
  | _ => rfl

/-! ## The other nodes -/

def NotExpr.create (e : Expr) : Expr :=
  match e with
  | .constant c => .constant c.not
  | _ => .not e

def ZExtExpr.create (e : Expr) (w : Nat) : Expr :=
  if w = e.getWidth then e
  else if w < e.getWidth then ExtractExpr.create e 0 w
  else match e with
    | .constant c => .constant (c.zextOrTrunc w)
    | _ => .zext e w

def SExtExpr.create (e : Expr) (w : Nat) : Expr :=
  if w = e.getWidth then e
  else if w < e.getWidth then ExtractExpr.create e 0 w
  else match e with
    | .constant c => .constant (c.sextOrTrunc w)
    | _ => .sext e w

def NotOptimizedExpr.create (src : Expr) : Expr := .notOptimized src

def SelectExpr.create (c t f : Expr) : Expr :=
  match c with
  | .constant ce => if ConstantExpr.isTrue ce then t else f
  | _ =>
    if t = f then t
    else if t.getWidth = 1 then
      match t with
      | .constant ct =>
        if ConstantExpr.isTrue ct then OrExpr.create c f
        else AndExpr.create (Expr.createIsZero constArrayOpt c) f
      | _ => match f with
        | .constant cf =>
          if ConstantExpr.isTrue cf then
            OrExpr.create (Expr.createIsZero constArrayOpt c) t
          else AndExpr.create c t
        | _ => .select c t f
    else .select c t f

namespace ReadExpr

/-- Walk the updates from the newest on: stop with the value of an update that
is certainly at `index`, at the first one that may be (`true`: a symbolic
write was found), or at the end. -/
def walkUpdates (index : Expr) : UpdateNode → Expr ⊕ UpdateNode × Bool
  | .null => .inr (.null, false)
  | .node next i value =>
    match EqExpr.create constArrayOpt index i with
    | .constant ce =>
      if ConstantExpr.isTrue ce then .inl value
      else walkUpdates index next
    | _ => .inr (.node next i value, true)

def create (root : Array) (head : UpdateNode) (index : Expr) : Expr :=
  match walkUpdates constArrayOpt index head with
  | .inl value => value
  | .inr (un, updateListHasSymbolicWrites) =>
    match index with
    | .constant ce =>
      if root.isConstantArray && !updateListHasSymbolicWrites &&
          decide (ce.toNat < root.size) then
        .constant ⟨8, root.constantValues.getD ce.toNat 0⟩
      -- drop the most recent but unimportant updates
      else if ce.toNat < root.size then .read root un index
      else .read root head index
    | _ => .read root head index

end ReadExpr

/-- The constructor of a node's class, called on its operands. -/
def Expr.rebuild : Expr → Expr
  | .constant value => .constant value
  | .notOptimized src => NotOptimizedExpr.create src
  | .read root head index => ReadExpr.create constArrayOpt root head index
  | .select c t f => SelectExpr.create constArrayOpt c t f
  | .concat l r => ConcatExpr.create l r
  | .extract e off w => ExtractExpr.create e off w
  | .zext e w => ZExtExpr.create e w
  | .sext e w => SExtExpr.create e w
  | .not e => NotExpr.create e
  | .binary .add l r => AddExpr.create constArrayOpt l r
  | .binary .sub l r => SubExpr.create constArrayOpt l r
  | .binary .mul l r => MulExpr.create l r
  | .binary .udiv l r => UDivExpr.create l r
  | .binary .sdiv l r => SDivExpr.create l r
  | .binary .urem l r => URemExpr.create l r
  | .binary .srem l r => SRemExpr.create l r
  | .binary .and l r => AndExpr.create l r
  | .binary .or l r => OrExpr.create l r
  | .binary .xor l r => XorExpr.create constArrayOpt l r
  | .binary .shl l r => ShlExpr.create constArrayOpt l r
  | .binary .lshr l r => LShrExpr.create constArrayOpt l r
  | .binary .ashr l r => AShrExpr.create l r
  | .cmp .eq l r => EqExpr.create constArrayOpt l r
  | .cmp .ne l r => NeExpr.create constArrayOpt l r
  | .cmp .ult l r => UltExpr.create constArrayOpt l r
  | .cmp .ule l r => UleExpr.create constArrayOpt l r
  | .cmp .ugt l r => UgtExpr.create constArrayOpt l r
  | .cmp .uge l r => UgeExpr.create constArrayOpt l r
  | .cmp .slt l r => SltExpr.create constArrayOpt l r
  | .cmp .sle l r => SleExpr.create constArrayOpt l r
  | .cmp .sgt l r => SgtExpr.create constArrayOpt l r
  | .cmp .sge l r => SgeExpr.create constArrayOpt l r

end VitalSE
