import Mathlib.Data.Prod.Lex
import VitalSE.Expr.CreateCalls

/-!
# The rewriting constructors terminate

A call on a sum that reassociates hands what it has built to a call with a
constant operand, and that one only goes down the other operand, constant by
constant. Calls are therefore ordered by whether they have a constant operand,
and then by size. An extract that a concatenation merges is taken from a part of
what the concatenation was made from.
-/

namespace VitalSE

namespace CreateCall

/-- With a constant operand only the other one counts, however large the call
that built it has made it. -/
noncomputable def rank : CreateCall → ℕ ×ₗ ℕ
  | add (.constant _) r | sub (.constant _) r => toLex (0, 3 * sizeOf r + 2)
  | add l (.constant _) | sub l (.constant _) => toLex (0, 3 * sizeOf l + 2)
  | add l r | sub l r => toLex (1, sizeOf l + sizeOf r)
  | addPartialR _ r | subPartialR _ r => toLex (0, 3 * sizeOf r + 1)
  | eq l (.constant _) => toLex (0, 3 * sizeOf l + 1)
  | eq _ r => toLex (0, 3 * sizeOf r + 1)
  | eqPartialR _ r => toLex (0, 3 * sizeOf r)
  | extract expr _ _ => toLex (0, 2 * expr.concatSize)
  | concat l _ => toLex (0, 2 * l.innerSize + 1)

variable {constArrayOpt : Bool} {cl : APInt} {l r : Expr}

theorem rank_sum_lt {n : ℕ} (h : sizeOf l + sizeOf r < n) :
    rank (add l r) < toLex (1, n) ∧ rank (sub l r) < toLex (1, n) := by
  constructor <;> unfold rank <;> split <;> simp_all [Prod.Lex.toLex_lt_toLex]

theorem rank_constant_lt {n : ℕ} :
    rank (add (.constant cl) r) < toLex (1, n) ∧
      rank (sub (.constant cl) r) < toLex (1, n) ∧
      rank (sub r (.constant cl)) < toLex (1, n) := by
  cases r <;> simp [rank, Prod.Lex.toLex_lt_toLex]

theorem rank_addGeneral : ∀ c ∈ addGeneral constArrayOpt l r,
    rank c < toLex (1, sizeOf l + sizeOf r) := by
  unfold addGeneral
  split
  · simp
  · split <;> simp (disch := omega) [rank_sum_lt, rank_constant_lt]

theorem rank_subGeneral : ∀ c ∈ subGeneral constArrayOpt l r,
    rank c < toLex (1, sizeOf l + sizeOf r) := by
  unfold subGeneral
  split
  · simp
  · split <;> simp (disch := omega) [rank_sum_lt, rank_constant_lt]

theorem rank_xorPartialR :
    ∀ c ∈ xorPartialR cl r, rank c < toLex (0, 3 * sizeOf r + 1) := by
  unfold xorPartialR
  split <;> simp [rank, Prod.Lex.toLex_lt_toLex]

theorem rank_tryConstArrayOpt {root : Array} {head : UpdateNode} :
    ∀ c ∈ tryConstArrayOpt cl root head r,
      rank c < toLex (0, 3 * sizeOf (Expr.read root head r)) := by
  unfold tryConstArrayOpt
  split
  · simp
  · intro c hc
    obtain ⟨p, -, rfl⟩ := List.mem_map.mp hc
    simp [rank, Expr.const, Prod.Lex.toLex_lt_toLex]
    omega

/-- Every call is below its caller. -/
theorem rank_callees (c : CreateCall) :
    ∀ c' ∈ callees constArrayOpt c, rank c' < rank c := by
  cases c with
  | add l r =>
    simp only [callees]
    split
    case h_4 =>
      exact fun c' h => (rank_addGeneral c' h).trans_eq (by simp [rank])
    all_goals simp [rank, Prod.Lex.toLex_lt_toLex]
  | sub l r =>
    simp only [callees]
    split
    case h_4 =>
      exact fun c' h => (rank_subGeneral c' h).trans_eq (by simp [rank])
    all_goals simp [rank, Prod.Lex.toLex_lt_toLex]
  | addPartialR cl r | subPartialR cl r =>
    simp only [callees]
    repeat' split
    all_goals try exact rank_xorPartialR
    all_goals simp [rank, Prod.Lex.toLex_lt_toLex] <;> omega
  | eq l r =>
    simp only [callees]
    split <;> simp [rank, Prod.Lex.toLex_lt_toLex]
  | eqPartialR cl r =>
    simp only [callees]
    repeat' split
    all_goals try exact rank_tryConstArrayOpt
    all_goals simp [rank, Expr.const, Prod.Lex.toLex_lt_toLex] <;> omega
  | extract e off w =>
    cases e with
    | concat left right =>
      have := ExtractExpr.innerSize_create left 0 (off + w - right.getWidth)
      simp only [callees]
      repeat' split
      all_goals
        simp [rank, Expr.concatSize, Prod.Lex.toLex_lt_toLex] <;> omega
    | _ => simp [callees]
  | concat l r =>
    simp only [callees]
    repeat' split
    all_goals simp [rank, Expr.innerSize, Prod.Lex.toLex_lt_toLex]

/-- No operands make the five constructors call each other for ever. -/
theorem create_terminates (c : CreateCall) : Terminates constArrayOpt c :=
  Subrelation.accessible (rank_callees _ _)
    ((InvImage.wf rank wellFounded_lt).apply c)

end CreateCall

end VitalSE
