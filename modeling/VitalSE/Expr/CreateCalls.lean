import VitalSE.Expr.Create

/-!
# The calls of the rewriting constructors

`AddExpr`, `SubExpr`, `EqExpr`, `ExtractExpr` and `ConcatExpr::create` call each
other, also on what another call has just built. `callees` lists the calls that
each of them makes, in the order of the source and with no bound; an argument
that is the value of a call made before is given by the model of the callee. A
call that folds two constants, or that goes to a constructor outside the five
that calls none of them, is left out.
-/

namespace VitalSE

inductive CreateCall
  | add (l r : Expr)
  | addPartialR (cl : APInt) (r : Expr)
  | sub (l r : Expr)
  | subPartialR (cl : APInt) (r : Expr)
  | eq (l r : Expr)
  | eqPartialR (cl : APInt) (r : Expr)
  | extract (expr : Expr) (off w : Nat)
  | concat (l r : Expr)

namespace CreateCall

variable (constArrayOpt : Bool)

/-- The calls of `XorExpr_createPartialR`. -/
def xorPartialR (cl : APInt) (r : Expr) : List CreateCall :=
  if !cl.isZero && cl.width = 1 then [eqPartialR (APInt.ofNat 1 0) r] else []

/-- The calls of `AddExpr_create`. -/
def addGeneral (l r : Expr) : List CreateCall :=
  if l.getWidth = 1 then []
  else match l, r with
    | .binary .add (.constant k) a, r => -- (k+a)+b = k+(a+b)
        [add a r, add (.constant k) (AddExpr.create constArrayOpt a r)]
    | .binary .sub (.constant k) a, r => -- (k-a)+b = k+(b-a)
        [sub r a, add (.constant k) (SubExpr.create constArrayOpt r a)]
    | l, .binary .add (.constant k) b => -- a+(k+b) = k+(a+b)
        [add l b, add (.constant k) (AddExpr.create constArrayOpt l b)]
    | l, .binary .sub (.constant k) b => -- a+(k-b) = k+(a-b)
        [sub l b, add (.constant k) (SubExpr.create constArrayOpt l b)]
    | _, _ => []

/-- The calls of `SubExpr_create`. -/
def subGeneral (l r : Expr) : List CreateCall :=
  if l.getWidth = 1 ∨ l = r then []
  else match l, r with
    | .binary .add (.constant k) a, r => -- (k+a)-b = k+(a-b)
        [sub a r, add (.constant k) (SubExpr.create constArrayOpt a r)]
    | .binary .sub (.constant k) a, r => -- (k-a)-b = k-(a+b)
        [add a r, sub (.constant k) (AddExpr.create constArrayOpt a r)]
    | l, .binary .add (.constant k) b => -- a-(k+b) = (a-b)-k
        [sub l b, sub (SubExpr.create constArrayOpt l b) (.constant k)]
    | l, .binary .sub (.constant k) b => -- a-(k-b) = (a+b)-k
        [add l b, sub (AddExpr.create constArrayOpt l b) (.constant k)]
    | _, _ => []

/-- The calls of `TryConstArrayOpt`, which gives up at the match after the
hundredth. -/
def tryConstArrayOpt (cl : APInt) (root : Array) (head : UpdateNode)
    (index : Expr) : List CreateCall :=
  if root.isSymbolicArray || head != .null then []
  else (root.constantValues.zipIdx.filter (cl = ⟨8, ·.1⟩)).take 100 |>.map
    fun (_, i) => eq index (Expr.const i index.getWidth)

/-- The calls of the constructor `c`. -/
def callees : CreateCall → List CreateCall
  | add l r => match l, r with
    | .constant _, .constant _ => []
    | .constant cl, r => [addPartialR cl r]
    | l, .constant cr => [addPartialR cr l]
    | l, r => addGeneral constArrayOpt l r
  | addPartialR cl r =>
    if cl.width = 1 then xorPartialR cl r
    else if cl.isZero then []
    else match r with
      | .binary .add (.constant c) y => [add (.constant (cl.add c)) y]
      | .binary .sub (.constant c) y => [sub (.constant (cl.add c)) y]
      | _ => []
  | sub l r => match l, r with
    | .constant _, .constant _ => []
    | .constant cl, r => [subPartialR cl r]
    | l, .constant cr => [addPartialR ((APInt.ofNat cr.width 0).sub cr) l]
    | l, r => subGeneral constArrayOpt l r
  | subPartialR cl r =>
    if cl.width = 1 then xorPartialR cl r
    else match r with
      | .binary .add (.constant c) y => [sub (.constant (cl.sub c)) y]
      | .binary .sub (.constant c) y => [add (.constant (cl.sub c)) y]
      | _ => []
  | eq l r => match l, r with
    | .constant _, .constant _ => []
    | .constant cl, r => [eqPartialR cl r]
    | l, .constant cr => [eqPartialR cr l]
    | _, _ => []
  | eqPartialR cl r =>
    if cl.width = 1 then
      if ConstantExpr.isTrue cl then []
      else match r with
        | .binary .or left right =>
          [eq left (Expr.const 0 left.getWidth),
            eq right (Expr.const 0 right.getWidth)]
        | _ => []
    else match r with
      | .sext src _ =>
        let trunc := cl.zextOrTrunc src.getWidth
        if cl = trunc.sextOrTrunc cl.width then [eq src (.constant trunc)]
        else []
      | .zext src _ =>
        let trunc := cl.zextOrTrunc src.getWidth
        if cl = trunc.zextOrTrunc cl.width then [eq src (.constant trunc)]
        else []
      | .binary .add (.constant c) right => [eqPartialR (cl.sub c) right]
      | .binary .sub (.constant c) right => [eqPartialR (c.sub cl) right]
      | .read root head index =>
        if constArrayOpt then tryConstArrayOpt cl root head index else []
      | _ => []
  | extract expr off w => match expr with
    | .concat left right =>
      let rw := right.getWidth
      if w = left.getWidth + rw then []
      else if rw ≤ off then [extract left (off - rw) w]
      else if off + w ≤ rw then [extract right off w]
      else [extract left 0 (off + w - rw), extract right off (rw - off),
        concat (ExtractExpr.create left 0 (off + w - rw))
          (ExtractExpr.create right off (rw - off))]
    | _ => []
  | concat l r => match l, r with
    | .extract el ol wl, .extract er or' wr =>
      if el = er ∧ or' + wr = ol then [extract el or' (wl + wr)] else []
    | _, _ => []

/-- `c` returns: no chain of calls from it goes on for ever. -/
def Terminates (c : CreateCall) : Prop :=
  Acc (fun callee caller => callee ∈ callees constArrayOpt caller) c

end CreateCall

end VitalSE
