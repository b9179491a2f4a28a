import VitalSE.Expr.Evaluator
import VitalSE.Proofs.VisitorSound

/-!
# Evaluation keeps the value

An evaluator whose initial values are those of a valuation does not change the
value of an expression under it. Nothing is said about which reads it resolves:
a read that it leaves alone is right too, and so is one that it moves behind
the updates it could decide.
-/

namespace VitalSE

open VitalSE.Expr (kids)

variable {visit : Expr → Option Expr} {e d r l : Expr} {k : BinaryKind} {σ : Valuation}
  {K : Array → Nat → Prop} {n w : Nat} {root : Array} {z : BitVec w} {head : UpdateNode}
  {opt : Bool} {init : Array → Nat → Expr}

namespace ExprEvaluator

variable {next : UpdateNode} {i value : Expr} {index : Nat}

/-- The initial values are those of `σ`. In a constant array they are only
asked for beyond its end. -/
def Initial (σ : Valuation) (init : Array → Nat → Expr) : Prop :=
  ∀ root index, index < 2 ^ 32 →
    (root.isConstantArray = true → root.size ≤ index) →
    Simplifies σ (.read root .null (Expr.const index Array.domain))
      (init root index)

/-- The position of a read as the 32-bit word that is looked up. -/
theorem read_word (ce : APInt) : Simplifies σ (.read root head (.constant ce))
      (.read root head (Expr.const (ce.toNat % 2 ^ 32) Array.domain)) := by
  have word : ce.width = 32 →
      Expr.const (ce.toNat % 2 ^ 32) Array.domain = .constant ce := by
    intro hw
    obtain ⟨x, rfl⟩ := APInt.exists_bits hw
    simp only [Expr.const, APInt.ofNat, APInt.toNat, Array.domain,
      Nat.mod_eq_of_lt x.isLt, BitVec.ofNat_toNat, BitVec.setWidth_eq]
  refine ⟨fun ht => ?_, fun hx => ?_, ?_⟩
  · rw [word (typed_constant.mp (typed_read.mp ht).2.2.1).2]
    exact ht
  · rw [word (typed_constant.mp (typed_read.mp hx.typed).2.2.1).2]
    exact hx
  · simp only [Expr.weight, Expr.const, le_refl]

theorem denotes_word {x : BitVec 32} (hi : index < 2 ^ 32)
    (h : Denotes σ (Expr.const index Array.domain) x) : x.toNat = index := by
  obtain ⟨_, heq⟩ := denotes_constant.mp h
  have hx : BitVec.ofNat 32 index = x := by
    simpa [APInt.ofNat, Array.domain] using heq
  rw [← hx, BitVec.toNat_ofNat, Nat.mod_eq_of_lt hi]

/-- A byte of a symbolic array that is known. -/
theorem read_byte {i : Nat} {v : BitVec 8} (hsym : root.isConstantArray = false)
    (hi : i < 2 ^ 32) (hv : σ root i = v) :
    Simplifies σ (.read root .null (Expr.const i Array.domain)) (.constant ⟨8, v⟩) := by
  refine read_initial fun hj hb => ?_
  rw [Array.initialValue, if_neg (by simp [hsym]), denotes_word hi hj, hv] at hb
  exact (Option.some.inj hb).symm

/-- An update whose position has become constant, against the position that is
looked up. -/
theorem update_toNat {ce : APInt} (hi : Simplifies σ i (.constant ce))
    {y : BitVec 32} (hy : Denotes σ i y) : ce.toNat = y.toNat := by
  rw [(denotes_constant.mp (hi.value hy)).2]
  rfl

theorem evalRead_simplifies (opt : Bool) (root : Array) (hinit : Initial σ init)
    (hindex : index < 2 ^ 32) : ∀ head : UpdateNode,
    (∀ k : Expr, k.weight ≤ head.weight → ∃ r, visit k = some r ∧ Simplifies σ k r) →
    ∃ d, evalRead opt init visit root index head = some (.changeTo d) ∧
      Simplifies σ (.read root head (Expr.const index Array.domain)) d
  | .null, _ => by
    rw [evalRead]
    split
    · next hconst =>
      have hroot : root.isConstantArray = true ∧ index < root.size := by
        simpa using hconst
      refine ⟨_, rfl, ?_⟩
      have htoNat : (APInt.ofNat Array.domain index).toNat = index := by
        simpa [APInt.ofNat, APInt.toNat, Array.domain] using hindex
      have h : Simplifies σ (.read root .null (Expr.const index Array.domain)) _ :=
        read_constant hroot.1
      rwa [htoNat] at h
    · next hconst =>
      refine ⟨_, rfl, hinit root index hindex fun hroot => ?_⟩
      simpa [hroot] using hconst
  | .node next i value, hvisit => by
    have hw : (UpdateNode.node next i value).weight =
        next.weight + i.weight + value.weight := rfl
    obtain ⟨i', hi', hi⟩ := hvisit i (by omega)
    simp only [evalRead, hi', Option.bind_eq_bind, Option.bind_some]
    split
    · next ce =>
      split
      · next heq =>
        obtain ⟨value', hv', hv⟩ := hvisit value (by omega)
        refine ⟨value', by simp [hv'], (read_hit fun hx hy => ?_).trans hv⟩
        rw [BitVec.toNat_eq, denotes_word hindex hx, ← heq, update_toNat hi hy]
      · next hne =>
        obtain ⟨d, hd, hs⟩ := evalRead_simplifies opt root hinit hindex next
          fun k hk => hvisit k (by omega)
        refine ⟨d, hd, (read_skip fun hx hy heq => hne ?_).trans hs⟩
        rw [update_toNat hi hy, ← heq, denotes_word hindex hx]
    · exact ⟨_, rfl, ReadExpr.create_simplifies⟩

/-! ## The hooks -/

theorem visitExpr_simplifies (h : visitExpr opt e = .changeTo d) : Simplifies σ e d := by
  unfold visitExpr at h
  split at h
  · cases h
  · cases h
  · split at h
    · cases h
      exact rebuild_simplifies σ opt e
    · cases h

theorem visitExprPost_simplifies (h : visitExprPost e = .changeTo d) : Simplifies σ e d := by
  unfold visitExprPost at h
  split at h
  · cases h
    exact ⟨typed_notOptimized.mp, denotes_notOptimized.mp, Nat.le_succ _⟩
  · cases h

theorem protectDivisor_simplifies {r' : Expr} (h : Simplifies σ r r') :
    Simplifies σ r (protectDivisor r r') := by
  unfold protectDivisor
  split
  · split
    · exact .refl
    · exact h
  · exact h

section

variable (hvisit : ∀ k : Expr, k.weight < e.weight → ∃ r, visit k = some r ∧ Simplifies σ k r)

include hvisit

theorem visitRead_simplifies (hinit : Initial σ init) {index : Expr}
    (he : e = .read root head index) : ∃ a, visitRead opt init visit root head index = some a ∧
      ∀ d, a = .changeTo d → Simplifies σ e d := by
  have hw : e.weight = 200 * index.weight + head.weight := by rw [he]; rfl
  have hpos := index.weight_pos
  obtain ⟨index', hi', hi⟩ := hvisit index (by omega)
  simp only [visitRead, hi', Option.bind_eq_bind, Option.bind_some]
  split
  · next ce =>
    obtain ⟨d, hd, hs⟩ := evalRead_simplifies opt root hinit
      (Nat.mod_lt ce.toNat (by decide)) head fun k hk => hvisit k (by omega)
    refine ⟨_, hd, fun d' hd' => ?_⟩
    cases hd'
    rw [he]
    exact (Simplifies.read hi).trans ((read_word ce).trans hs)
  · exact ⟨_, rfl, fun d hd => by cases hd⟩

theorem protectedDivOperation_simplifies (he : e = .binary k l r) :
    ∃ a, protectedDivOperation opt visit k l r = some a ∧
      ∀ d, a = .changeTo d → Simplifies σ e d := by
  subst he
  obtain ⟨l', hl', hsl⟩ :=
    hvisit l (Expr.weight_lt_of_mem_kids (by simp [kids]))
  obtain ⟨r', hr', hsr⟩ :=
    hvisit r (Expr.weight_lt_of_mem_kids (by simp [kids]))
  simp only [protectedDivOperation, hl', hr', Option.bind_eq_bind, Option.bind_some]
  split
  · refine ⟨_, rfl, fun d hd => ?_⟩
    cases hd
    exact (Simplifies.binary hsl (protectDivisor_simplifies hsr)).trans
      (rebuild_simplifies σ opt _)
  · exact ⟨_, rfl, fun d hd => by cases hd⟩

theorem visitNode_simplifies (hinit : Initial σ init) : ∃ a, visitNode opt init visit e = some a ∧
      ∀ d, a = .changeTo d → Simplifies σ e d := by
  unfold visitNode
  split
  · exact visitRead_simplifies hvisit hinit rfl
  · exact protectedDivOperation_simplifies hvisit rfl
  · exact protectedDivOperation_simplifies hvisit rfl
  · exact protectedDivOperation_simplifies hvisit rfl
  · exact protectedDivOperation_simplifies hvisit rfl
  · exact ⟨_, rfl, fun d hd => by cases hd⟩

end

theorem visitor_preserves (hinit : Initial σ init) : (visitor opt init).Preserves σ where
  expr := visitExpr_simplifies
  node hvisit := visitNode_simplifies hvisit hinit
  exprPost := visitExprPost_simplifies
  once := rfl

/-- The evaluation ends, with an expression of the same value. -/
theorem evaluate_simplifies (opt : Bool) (hinit : Initial σ init) (e : Expr) :
    ∃ r, evaluate opt init e = some r ∧ Simplifies σ e r :=
  ExprVisitor.visit_simplifies opt (visitor_preserves hinit) le_rfl

end ExprEvaluator

/-! ## Evaluation to a constant -/

theorem ExtractExpr.create_isConstant (c : APInt) (off w : Nat) :
    (create (.constant c) off w).isConstant = true := by
  rw [create_eq]
  split <;> rfl

/-- A node over constants is folded, if it is not kept from being optimized. -/
theorem Expr.rebuild_isConstant (opt : Bool) (hkids : ∀ k ∈ e.kids, k.isConstant = true)
    (hread : ∀ root head index, e ≠ .read root head index)
    (hopt : ∀ src, e ≠ .notOptimized src) : (e.rebuild opt).isConstant = true := by
  cases e with
  | constant => rfl
  | notOptimized src => exact absurd rfl (hopt src)
  | read root head index => exact absurd rfl (hread root head index)
  | select c t f =>
    obtain ⟨c, rfl⟩ := isConstant_iff.mp (hkids c (by simp [kids]))
    rw [rebuild, SelectExpr.create]
    split
    · exact hkids t (by simp [kids])
    · exact hkids f (by simp [kids])
  | concat l r =>
    obtain ⟨l, rfl⟩ := isConstant_iff.mp (hkids l (by simp [kids]))
    obtain ⟨r, rfl⟩ := isConstant_iff.mp (hkids r (by simp [kids]))
    rfl
  | extract e off w =>
    obtain ⟨c, rfl⟩ := isConstant_iff.mp (hkids e (by simp [kids]))
    exact ExtractExpr.create_isConstant c off w
  | zext e w | sext e w =>
    obtain ⟨c, rfl⟩ := isConstant_iff.mp (hkids e (by simp [kids]))
    simp only [rebuild, ZExtExpr.create, SExtExpr.create]
    split
    · rfl
    · split
      · exact ExtractExpr.create_isConstant c 0 w
      · rfl
  | not e =>
    obtain ⟨c, rfl⟩ := isConstant_iff.mp (hkids e (by simp [kids]))
    rfl
  | binary k l r =>
    obtain ⟨l, rfl⟩ := isConstant_iff.mp (hkids l (by simp [kids]))
    obtain ⟨r, rfl⟩ := isConstant_iff.mp (hkids r (by simp [kids]))
    cases k with
    | add => rw [rebuild, AddExpr.create]; rfl
    | sub => rw [rebuild, SubExpr.create]; rfl
    | _ => rfl
  | cmp k l r =>
    obtain ⟨l, rfl⟩ := isConstant_iff.mp (hkids l (by simp [kids]))
    obtain ⟨r, rfl⟩ := isConstant_iff.mp (hkids r (by simp [kids]))
    cases k <;> rfl

/-- `e` has a value under `σ`, of whatever width. -/
def Expr.HasValue (σ : Valuation) (e : Expr) : Prop :=
  ∃ (w : Nat) (x : BitVec w), Denotes σ e x

theorem forall_mem_pair {α : Type} {P : α → Prop} {a b : α} :
    (∀ k ∈ [a, b], P k) ↔ P a ∧ P b := by simp

open List (forall_mem_singleton forall_mem_cons)

theorem Expr.HasValue.kids (h : e.HasValue σ) : ∀ k ∈ e.kids, k.HasValue σ := by
  obtain ⟨w, x, hx⟩ := h
  cases e with
  | constant => exact fun k hk => absurd hk List.not_mem_nil
  | notOptimized src => exact forall_mem_singleton.mpr ⟨w, x, denotes_notOptimized.mp hx⟩
  | read root head index =>
    obtain ⟨rfl, -⟩ := typed_read.mp hx.typed
    obtain ⟨-, us, j, -, hj, -⟩ := denotes_read.mp hx
    exact forall_mem_singleton.mpr ⟨32, j, hj⟩
  | select c t f =>
    obtain ⟨b, y, z, hb, hy, hz, -⟩ := denotes_select.mp hx
    exact forall_mem_cons.mpr ⟨⟨_, _, hb⟩, forall_mem_pair.mpr ⟨⟨_, _, hy⟩, ⟨_, _, hz⟩⟩⟩
  | concat l r =>
    obtain ⟨u, v, hl, hr, rfl⟩ := typed_concat.mp hx.typed
    obtain ⟨y, z, hy, hz, -⟩ := (denotes_concat hl hr).mp hx
    exact forall_mem_pair.mpr ⟨⟨_, _, hy⟩, ⟨_, _, hz⟩⟩
  | extract e off n =>
    obtain ⟨rfl, -⟩ := typed_extract.mp hx.typed
    obtain ⟨-, u, y, -, hy, -⟩ := denotes_extract.mp hx
    exact forall_mem_singleton.mpr ⟨u, y, hy⟩
  | zext e n =>
    obtain ⟨rfl, -⟩ := typed_zext.mp hx.typed
    obtain ⟨u, y, -, hy, -⟩ := denotes_zext.mp hx
    exact forall_mem_singleton.mpr ⟨u, y, hy⟩
  | sext e n =>
    obtain ⟨rfl, -⟩ := typed_sext.mp hx.typed
    obtain ⟨u, y, -, hy, -⟩ := denotes_sext.mp hx
    exact forall_mem_singleton.mpr ⟨u, y, hy⟩
  | not e =>
    obtain ⟨y, hy, -⟩ := denotes_not.mp hx
    exact forall_mem_singleton.mpr ⟨w, y, hy⟩
  | binary op l r =>
    obtain ⟨y, z, hy, hz, -⟩ := denotes_binary.mp hx
    exact forall_mem_pair.mpr ⟨⟨_, _, hy⟩, ⟨_, _, hz⟩⟩
  | cmp op l r =>
    obtain ⟨rfl, -⟩ := typed_cmp.mp hx.typed
    obtain ⟨u, y, z, hy, hz, -⟩ := denotes_cmp.mp hx
    exact forall_mem_pair.mpr ⟨⟨_, _, hy⟩, ⟨_, _, hz⟩⟩

mutual

/-- In the nodes that an evaluation under `σ` visits, all bytes that are read are in
`K`, and nothing keeps a constant from being optimized. -/
def Expr.Resolves (σ : Valuation) (K : Array → Nat → Prop) : Expr → Prop
  | .constant _ => True
  | .notOptimized src => src.isConstant = false ∧ src.Resolves σ K
  | .read root head index => index.Resolves σ K ∧
      ∀ j : BitVec 32, Denotes σ index j → head.ResolvesAt σ K root j
  | .select cond trueExpr falseExpr =>
    cond.Resolves σ K ∧ trueExpr.Resolves σ K ∧ falseExpr.Resolves σ K
  | .concat left right => left.Resolves σ K ∧ right.Resolves σ K
  | .extract expr _ _ => expr.Resolves σ K
  | .zext src _ => src.Resolves σ K
  | .sext src _ => src.Resolves σ K
  | .not expr => expr.Resolves σ K
  | .binary _ left right => left.Resolves σ K ∧ right.Resolves σ K
  | .cmp _ left right => left.Resolves σ K ∧ right.Resolves σ K

/-- The search for the position `j` ends at the first update of it, and visits only
the value of that one. -/
def UpdateNode.ResolvesAt (σ : Valuation) (K : Array → Nat → Prop) (root : Array)
    (j : BitVec 32) : UpdateNode → Prop
  | .null => root.isConstantArray = true ∨ K root j.toNat
  | .node next index value => index.Resolves σ K ∧ ∀ i : BitVec 32, Denotes σ index i →
      (i = j → value.Resolves σ K) ∧ (i ≠ j → next.ResolvesAt σ K root j)

end

theorem Expr.Resolves.kids (h : e.Resolves σ K) : ∀ k ∈ e.kids, k.Resolves σ K := by
  cases e with
  | constant => exact fun k hk => absurd hk List.not_mem_nil
  | notOptimized src =>
    rw [Expr.Resolves] at h
    exact forall_mem_singleton.mpr h.2
  | read root head index =>
    rw [Expr.Resolves] at h
    exact forall_mem_singleton.mpr h.1
  | select c t f =>
    rw [Expr.Resolves] at h
    exact forall_mem_cons.mpr ⟨h.1, forall_mem_pair.mpr h.2⟩
  | concat l r | binary _ l r | cmp _ l r =>
    rw [Expr.Resolves] at h
    exact forall_mem_pair.mpr h
  | extract | zext | sext | not =>
    rw [Expr.Resolves] at h
    exact forall_mem_singleton.mpr h

namespace ExprEvaluator

/-- A visit that turns every operand with a value into that value. -/
def Folds (σ : Valuation) (K : Array → Nat → Prop) (n : Nat)
    (visit : Expr → Option Expr) : Prop :=
  ∀ {k : Expr} {w : Nat} {x : BitVec w}, k.weight ≤ n → k.Resolves σ K →
    Denotes σ k x → visit k = some (.constant ⟨w, x⟩)

theorem evalRead_folds (hK : ∀ root i, K root i → (init root i).isConstant = true)
    (hvisit : Folds σ K n visit) {j : BitVec 32} :
    ∀ {head : UpdateNode} {us : List (BitVec 32 × BitVec 8)}, head.weight ≤ n →
      head.ResolvesAt σ K root j → head.Denotes σ us → (readUpdates σ root j us).isSome = true →
      ∃ d, evalRead opt init visit root j.toNat head = some (.changeTo d) ∧
        d.isConstant = true
  | .null, us, _, hj, hus, hsome => by
    rw [UpdateNode.ResolvesAt] at hj
    rw [evalRead]
    split
    · exact ⟨_, rfl, rfl⟩
    · next hout =>
      refine ⟨_, rfl, hK root j.toNat (hj.resolve_left fun hroot => hout ?_)⟩
      rw [denotes_null.mp hus, readUpdates, Array.initialValue, if_pos hroot] at hsome
      have hlt : j.toNat < root.constantValues.length := by simpa using hsome
      simp [hroot, ← Array.length_constantValues hroot, hlt]
  | .node next i v, us, hw, hres, hus, hsome => by
    obtain ⟨us', y, b, hus', hy, hb, rfl⟩ := denotes_node.mp hus
    have hweight : (UpdateNode.node next i v).weight =
        next.weight + i.weight + v.weight := rfl
    rw [UpdateNode.ResolvesAt] at hres
    obtain ⟨hhit, hskip⟩ := hres.2 y hy
    have hi := hvisit (by omega) hres.1 hy
    simp only [evalRead, hi, Option.bind_eq_bind, Option.bind_some]
    split
    · next heq =>
      have hv := hvisit (by omega) (hhit (BitVec.eq_of_toNat_eq heq)) hb
      exact ⟨.constant ⟨8, b⟩, by simp [hv], rfl⟩
    · next hne =>
      have hne : y ≠ j := fun h => hne (by rw [h]; rfl)
      rw [readUpdates, if_neg hne.symm] at hsome
      exact evalRead_folds hK hvisit (by omega) (hskip hne) hus' hsome

variable (opt) in
theorem visitExpr_folds (hconst : e.isConstant = false)
    (hread : ∀ root head index, e ≠ .read root head index)
    (hopt : ∀ src, e = .notOptimized src → src.isConstant = false) :
    (∃ d, visitExpr opt e = .changeTo d ∧ d.isConstant = true) ∨
      visitExpr opt e = .doChildren ∧ ∃ k ∈ e.kids, k.isConstant = false := by
  have hall : visitExpr opt e = if e.kids.all Expr.isConstant
      then .changeTo (e.rebuild opt) else .doChildren := by
    cases e with
    | constant => cases hconst
    | read root head index => exact absurd rfl (hread root head index)
    | _ => rfl
  rw [hall]
  split
  · next h =>
    rw [List.all_eq_true] at h
    refine .inl ⟨_, rfl, Expr.rebuild_isConstant opt h hread fun src heq => ?_⟩
    have := h src (by simp [heq, kids])
    rw [hopt src heq] at this
    cases this
  · next h =>
    rw [List.all_eq_true, not_forall] at h
    obtain ⟨k, hk⟩ := h
    obtain ⟨hk, hnot⟩ := Classical.not_imp.mp hk
    exact .inr ⟨rfl, k, hk, Bool.eq_false_of_not_eq_true hnot⟩

section

variable (hK : ∀ root i, K root i → (init root i).isConstant = true)
  (hvisit : Folds σ K n visit)

include hvisit

variable (opt) in
theorem protectedDivOperation_folds {y : BitVec w} (hl : l.weight ≤ n)
    (hr : r.weight ≤ n) (hres : l.Resolves σ K ∧ r.Resolves σ K) (hy : Denotes σ l y)
    (hz : Denotes σ r z) (hz0 : z ≠ 0) (hsymbolic : l.isConstant = false ∨ r.isConstant = false) :
    ∃ d, protectedDivOperation opt visit k l r = some (.changeTo d) ∧ d.isConstant = true := by
  have hprotect : protectDivisor r (.constant ⟨w, z⟩) = .constant ⟨w, z⟩ := by
    rw [protectDivisor, if_neg]
    simpa [APInt.isZero] using hz0
  simp only [protectedDivOperation, hvisit hl hres.1 hy, hvisit hr hres.2 hz,
    Option.bind_eq_bind, Option.bind_some, hprotect]
  rw [if_pos]
  · exact ⟨_, rfl, Expr.rebuild_isConstant opt (forall_mem_pair.mpr ⟨rfl, rfl⟩) nofun nofun⟩
  · rcases hsymbolic with h | h
    · exact .inl fun heq => by rw [← heq] at h; cases h
    · exact .inr fun heq => by rw [← heq] at h; cases h

theorem mapKids_folds (hw : e.weight ≤ n + 1) (hres : e.Resolves σ K)
    (hval : e.HasValue σ) : ∃ e', e.mapKids visit = some e' ∧
      e.OverKids (fun _ k => k.isConstant = true) e' := by
  refine Expr.mapKids_overKids fun k hk => ?_
  obtain ⟨w, x, hx⟩ := hval.kids k hk
  have := Expr.weight_lt_of_mem_kids hk
  exact ⟨_, hvisit (by omega) (hres.kids k hk) hx, rfl⟩

include hK

variable (opt) in
theorem visitRead_folds {index : Expr} {x : BitVec 8}
    (hw : (Expr.read root head index).weight ≤ n + 1)
    (hres : (Expr.read root head index).Resolves σ K) (hx : Denotes σ (.read root head index) x) :
    ∃ d, visitRead opt init visit root head index = some (.changeTo d) ∧ d.isConstant = true := by
  have hweight : (Expr.read root head index).weight =
    200 * index.weight + head.weight := rfl
  have hpos := index.weight_pos
  rw [Expr.Resolves] at hres
  obtain ⟨-, us, j, hus, hj, hread⟩ := denotes_read.mp hx
  simp only [visitRead, hvisit (by omega) hres.1 hj, Option.bind_eq_bind,
    Option.bind_some]
  rw [show (⟨32, j⟩ : APInt).toNat % 2 ^ 32 = j.toNat from Nat.mod_eq_of_lt j.isLt]
  exact evalRead_folds hK hvisit (by omega) (hres.2 j hj) hus (by simp [hread])

end

/-- The kinds for which the evaluator looks at the divisor. -/
def isDivision : BinaryKind → Bool
  | .udiv | .sdiv | .urem | .srem => true
  | _ => false

theorem visitNode_other (hread : ∀ root head index, e ≠ .read root head index)
    (hdiv : ∀ k l r, e = .binary k l r → isDivision k = false) :
    visitNode opt init visit e = some .doChildren := by
  unfold visitNode
  split
  · next root head index => exact absurd rfl (hread root head index)
  · cases hdiv _ _ _ rfl
  · cases hdiv _ _ _ rfl
  · cases hdiv _ _ _ rfl
  · cases hdiv _ _ _ rfl
  · rfl

theorem divisor_ne_zero {x y : BitVec w} (hk : isDivision k = true)
    (h : k.apply y z = some x) : z ≠ 0 := by
  rintro rfl
  cases k <;> first | exact absurd hk (by decide) | simp [BinaryKind.apply] at h

section

variable {v : ExprVisitor} {e' : Expr}

theorem visit_of_node (hc : e.isConstant = false) (he : v.visitExpr e = .doChildren)
    (hn : v.visitNode (v.visit opt n) e = some (.changeTo d)) : v.visit opt (n + 1) e = some d := by
  rw [ExprVisitor.visit, if_neg (by simp [hc]), he]
  simp [hn]

theorem visit_of_kids (hc : e.isConstant = false) (he : v.visitExpr e = .doChildren)
    (hn : v.visitNode (v.visit opt n) e = some .doChildren)
    (hkids : e.mapKids (v.visit opt n) = some e') (hne : e' ≠ e) (hrec : v.recursive = false) :
    v.visit opt (n + 1) e = some (v.post (e'.rebuild opt)) := by
  rw [ExprVisitor.visit, if_neg (by simp [hc]), he]
  simp [hn, hkids, hne, hrec]

end

/-- A node that is rebuilt over constants becomes one, at the latest when what
keeps it from being optimized is taken away. -/
theorem post_rebuild_isConstant (hconst : e.isConstant = false)
    (hkids : ∀ k ∈ e.kids, k.isConstant = true)
    (hread : ∀ root head index, e ≠ .read root head index) :
    ((visitor opt init).post (e.rebuild opt)).isConstant = true := by
  by_cases hopt : ∀ src, e ≠ .notOptimized src
  · have hc := Expr.rebuild_isConstant opt hkids hread hopt
    rw [ExprVisitor.post, if_pos hc]
    exact hc
  · push Not at hopt
    obtain ⟨src, rfl⟩ := hopt
    exact hkids src (by simp [kids])

/-- Where all bytes are known the visit of an expression ends with a constant. -/
theorem visit_isConstant (hK : ∀ root i, K root i → (init root i).isConstant = true)
    (hvisit : Folds σ K n ((visitor opt init).visit opt n)) (hw : e.weight ≤ n + 1)
    (hres : e.Resolves σ K) (hval : e.HasValue σ) :
    ∃ d, (visitor opt init).visit opt (n + 1) e = some d ∧ d.isConstant = true := by
  cases hconst : e.isConstant with
  | true => exact ⟨e, by rw [ExprVisitor.visit, if_pos hconst], hconst⟩
  | false =>
  by_cases hread : ∀ root head index, e ≠ .read root head index
  swap
  · -- a read: its position and the positions of its updates are known
    push Not at hread
    obtain ⟨root, head, index, rfl⟩ := hread
    obtain ⟨w, x, hx⟩ := hval
    obtain ⟨rfl, -⟩ := typed_read.mp hx.typed
    obtain ⟨d, hd, hc⟩ := visitRead_folds opt hK hvisit hw hres hx
    exact ⟨d, visit_of_node hconst rfl hd, hc⟩
  have hopt : ∀ src, e = .notOptimized src → src.isConstant = false := by
    rintro src rfl
    rw [Expr.Resolves] at hres
    exact hres.1
  rcases visitExpr_folds opt hconst hread hopt with
    ⟨d, hd, hc⟩ | ⟨hd, k0, hk0, hsym⟩
  · have hd : (visitor opt init).visitExpr e = .changeTo d := hd
    exact ⟨d, by rw [ExprVisitor.visit, if_neg (by simp [hconst]), hd], hc⟩
  by_cases hdiv : ∀ k l r, e = .binary k l r → isDivision k = false
  swap
  · -- a division: the divisor has a value that is not zero
    push Not at hdiv
    obtain ⟨k, l, r, rfl, hk⟩ := hdiv
    have hk := Bool.eq_true_of_not_eq_false hk
    obtain ⟨w, x, hx⟩ := hval
    obtain ⟨y, z, hy, hz, happly⟩ := denotes_binary.mp hx
    have hlt {k' : Expr} (hk' : k' ∈ (Expr.binary k l r).kids) : k'.weight ≤ n :=
      Nat.le_of_lt_succ ((Expr.weight_lt_of_mem_kids hk').trans_le hw)
    have hsymbolic : l.isConstant = false ∨ r.isConstant = false := by
      simp only [kids, List.mem_cons, List.not_mem_nil, or_false] at hk0
      rcases hk0 with rfl | rfl
      · exact .inl hsym
      · exact .inr hsym
    rw [Expr.Resolves] at hres
    obtain ⟨d, hd', hc⟩ := protectedDivOperation_folds opt (k := k) hvisit
      (hlt (by simp [kids])) (hlt (by simp [kids])) hres hy hz
      (divisor_ne_zero hk happly) hsymbolic
    refine ⟨d, visit_of_node hconst hd (.trans ?_ hd'), hc⟩
    cases k <;> first | rfl | cases hk
  -- any other node is rebuilt over constants
  obtain ⟨e', he', hover⟩ := mapKids_folds hvisit hw hres hval
  have hkids : ∀ k ∈ e'.kids, k.isConstant = true := fun k hk =>
    (hover.kids k hk).elim fun _ h => h.2
  have hne : e' ≠ e := by
    rintro rfl
    rw [hkids k0 hk0] at hsym
    cases hsym
  refine ⟨_, visit_of_kids hconst hd (visitNode_other hread hdiv) he' hne rfl,
    post_rebuild_isConstant ?_ hkids ?_⟩
  · cases hover with
    | constant => cases hconst
    | _ => rfl
  · intro root head index heq
    subst heq
    cases hover with
    | read ha => exact hread _ _ _ rfl

section

variable (hinit : Initial σ init) (hK : ∀ root i, K root i → (init root i).isConstant = true)

include hinit hK

theorem visit_folds : ∀ n, Folds σ K n ((visitor opt init).visit opt n) := by
  intro n
  induction n with
  | zero =>
    unfold Folds
    intro k w x hw
    have := k.weight_pos
    omega
  | succ n ih =>
    unfold Folds
    intro e w x hw hres hx
    obtain ⟨d, hd, hc⟩ := visit_isConstant hK ih hw hres ⟨w, x, hx⟩
    obtain ⟨r, hr, hs⟩ := ExprVisitor.visit_simplifies opt (visitor_preserves hinit) hw
    obtain rfl : d = r := Option.some.inj (hd.symm.trans hr)
    obtain ⟨c, rfl⟩ := Expr.isConstant_iff.mp hc
    rw [hd, (denotes_constant.mp (hs.value hx)).2]

/-- Where all bytes are known the evaluation gives the value. -/
theorem evaluate_eq {x : BitVec w} (hres : e.Resolves σ K) (hx : Denotes σ e x) :
    evaluate opt init e = some (.constant ⟨w, x⟩) :=
  visit_folds hinit hK _ le_rfl hres hx

end

end ExprEvaluator

end VitalSE
