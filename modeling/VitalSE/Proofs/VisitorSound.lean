import VitalSE.Expr.Visitor
import VitalSE.Proofs.CreateSound

/-!
# Replacing visitors

A visitor that replaces some expressions by lighter ones of the same value
does to a whole expression what it does to those: the result has the value of
the expression, and it is the expression itself or lighter. The second half is
what makes the walk end, also with `recursive`, where a rebuilt expression is
walked again: an operand that changed has become lighter, the node over it is
then lighter too, and the constructor that rebuilds it adds no weight. So the
weight of the expression bounds the depth of the walk.
-/

namespace VitalSE

variable {a a' b b' e r : Expr} {P : Expr → Expr → Prop} {f : Expr → Option Expr}
  {σ : Valuation}

/-- `r` has the value of `s` and is `s` itself or lighter. -/
structure Reduces (σ : Valuation) (s r : Expr) : Prop
    extends Simplifies σ s r where
  strict : r = s ∨ r.weight < s.weight

namespace Reduces

variable {s t u : Expr}

theorem refl : Reduces σ s s := ⟨.refl, .inl rfl⟩

theorem trans (h : Reduces σ s t) (h' : Reduces σ t u) : Reduces σ s u := by
  refine ⟨h.toSimplifies.trans h'.toSimplifies, ?_⟩
  rcases h.strict with rfl | hlt
  · exact h'.strict
  · exact .inr (h'.weight.trans_lt hlt)

theorem of_lt (h : Simplifies σ s t) (hlt : t.weight < s.weight) :
    Reduces σ s t := ⟨h, .inr hlt⟩

/-- Rebuilding a node that has become lighter. -/
theorem rebuild (opt : Bool) (h : Reduces σ s t) (hne : t ≠ s) :
    Reduces σ s (t.rebuild opt) := by
  have hr := rebuild_simplifies σ opt t
  refine .of_lt (h.toSimplifies.trans hr) (hr.weight.trans_lt ?_)
  exact h.strict.resolve_left hne

end Reduces

/-! ## Operands -/

/-- A node is heavier than each of its operands. -/
theorem Expr.weight_lt_of_mem_kids {k : Expr} (h : k ∈ e.kids) :
    k.weight < e.weight := by
  have hk := k.weight_pos
  cases e with
  | constant => simp [kids] at h
  | notOptimized | read | extract | zext | sext | not =>
    simp only [kids, List.mem_singleton] at h
    subst h
    simp only [weight]
    omega
  | select | concat =>
    simp only [kids, List.mem_cons, List.not_mem_nil, or_false] at h
    rcases h with rfl | rfl | rfl <;> simp only [weight] <;> omega
  | binary op l r | cmp op l r =>
    have hl := Nat.le_mul_of_pos_right l.weight r.weight_pos
    have hr := Nat.le_mul_of_pos_left r.weight l.weight_pos
    simp only [kids, List.mem_cons, List.not_mem_nil, or_false] at h
    rcases h with rfl | rfl <;> cases op <;> simp only [weight] <;> omega

/-- One operand that has become lighter makes the pair lighter. -/
theorem Reduces.pair (ha : Reduces σ a a') (hb : Reduces σ b b') :
    (a' = a ∧ b' = b) ∨ a'.weight + b'.weight < a.weight + b.weight ∧
      a'.weight * b'.weight < a.weight * b.weight := by
  rcases ha.strict with rfl | h
  · rcases hb.strict with rfl | h
    · exact .inl ⟨rfl, rfl⟩
    · exact .inr ⟨by omega, Nat.mul_lt_mul_of_pos_left h a'.weight_pos⟩
  · exact .inr ⟨Nat.add_lt_add_of_lt_of_le h hb.weight,
      Nat.mul_lt_mul_of_lt_of_le h hb.weight b.weight_pos⟩

/-- The same node over operands that are related one by one. -/
inductive Expr.OverKids (P : Expr → Expr → Prop) : Expr → Expr → Prop where
  | constant (value : APInt) : OverKids P (.constant value) (.constant value)
  | notOptimized {a a' : Expr} (ha : P a a') :
      OverKids P (.notOptimized a) (.notOptimized a')
  | read {root : Array} {head : UpdateNode} {a a' : Expr} (ha : P a a') :
      OverKids P (.read root head a) (.read root head a')
  | select {a a' b b' c c' : Expr} (ha : P a a') (hb : P b b') (hc : P c c') :
      OverKids P (.select a b c) (.select a' b' c')
  | concat {a a' b b' : Expr} (ha : P a a') (hb : P b b') :
      OverKids P (.concat a b) (.concat a' b')
  | extract {off w : Nat} {a a' : Expr} (ha : P a a') :
      OverKids P (.extract a off w) (.extract a' off w)
  | zext {w : Nat} {a a' : Expr} (ha : P a a') :
      OverKids P (.zext a w) (.zext a' w)
  | sext {w : Nat} {a a' : Expr} (ha : P a a') :
      OverKids P (.sext a w) (.sext a' w)
  | not {a a' : Expr} (ha : P a a') : OverKids P (.not a) (.not a')
  | binary {k : BinaryKind} {a a' b b' : Expr} (ha : P a a') (hb : P b b') :
      OverKids P (.binary k a b) (.binary k a' b')
  | cmp {k : CmpKind} {a a' b b' : Expr} (ha : P a a') (hb : P b b') :
      OverKids P (.cmp k a b) (.cmp k a' b')

theorem Expr.OverKids.mono {Q : Expr → Expr → Prop} (h : OverKids P e r)
    (hPQ : ∀ {a b}, P a b → Q a b) : OverKids Q e r := by
  cases h <;> constructor <;> exact hPQ ‹_›

theorem Expr.OverKids.kids (h : OverKids P e r) :
    ∀ k ∈ r.kids, ∃ k0 ∈ e.kids, P k0 k := by
  cases h <;> simp_all [Expr.kids]

theorem Expr.mapKids_eq_some :
    e.mapKids f = some r ↔ OverKids (f · = some ·) e r := by
  constructor
  · intro h
    cases e <;>
      simp only [mapKids, Option.bind_eq_bind, Option.bind_eq_some_iff,
        Option.pure_def, Option.some.injEq] at h
    case constant => exact h ▸ .constant _
    case notOptimized | read | extract | zext | sext | not =>
      obtain ⟨a, ha, rfl⟩ := h
      constructor
      exact ha
    case concat | binary | cmp =>
      obtain ⟨a, ha, b, hb, rfl⟩ := h
      constructor
      · exact ha
      · exact hb
    case select =>
      obtain ⟨a, ha, b, hb, c, hc, rfl⟩ := h
      exact .select ha hb hc
  · intro h
    cases h <;> simp_all [mapKids]

theorem Expr.mapKids_overKids (h : ∀ k ∈ e.kids, ∃ r, f k = some r ∧ P k r) :
    ∃ r, e.mapKids f = some r ∧ OverKids P e r := by
  cases e with
  | constant value => exact ⟨_, rfl, .constant value⟩
  | notOptimized a | read _ _ a | extract a | zext a | sext a | not a =>
    obtain ⟨a', hf, ha⟩ := h a (by simp [kids])
    refine ⟨_, by rw [mapKids, hf]; rfl, ?_⟩
    constructor
    exact ha
  | concat a b | binary _ a b | cmp _ a b =>
    obtain ⟨a', hfa, ha⟩ := h a (by simp [kids])
    obtain ⟨b', hfb, hb⟩ := h b (by simp [kids])
    refine ⟨_, by rw [mapKids, hfa, hfb]; rfl, ?_⟩
    constructor
    · exact ha
    · exact hb
  | select a b c =>
    obtain ⟨a', hfa, ha⟩ := h a (by simp [kids])
    obtain ⟨b', hfb, hb⟩ := h b (by simp [kids])
    obtain ⟨c', hfc, hc⟩ := h c (by simp [kids])
    exact ⟨_, by simp [mapKids, hfa, hfb, hfc], .select ha hb hc⟩

theorem Expr.OverKids.simplifies (h : OverKids P e r)
    (hP : ∀ {a b}, P a b → Simplifies σ a b) : Simplifies σ e r := by
  cases h with
  | constant => exact .refl
  | notOptimized ha => exact (hP ha).notOptimized
  | read ha => exact (hP ha).read
  | select ha hb hc => exact (hP ha).select (hP hb) (hP hc)
  | concat ha hb => exact (hP ha).concat (hP hb)
  | extract ha => exact (hP ha).extract
  | zext ha => exact (hP ha).zext
  | sext ha => exact (hP ha).sext
  | not ha => exact (hP ha).not
  | binary ha hb => exact (hP ha).binary (hP hb)
  | cmp ha hb => exact (hP ha).cmp (hP hb)

/-- A node over operands that are no heavier, one of them lighter, is lighter. -/
theorem Expr.OverKids.reduces (h : OverKids (Reduces σ) e r) :
    Reduces σ e r := by
  refine ⟨h.simplifies Reduces.toSimplifies, ?_⟩
  cases h with
  | constant => exact .inl rfl
  | notOptimized ha | read ha | extract ha | zext ha | sext ha | not ha =>
    rcases ha.strict with rfl | hlt
    · exact .inl rfl
    · exact .inr (by simp only [weight]; omega)
  | concat ha hb =>
    rcases ha.pair hb with ⟨rfl, rfl⟩ | hlt
    · exact .inl rfl
    · exact .inr (by simp only [weight]; omega)
  | @binary k _ _ _ _ ha hb | @cmp k _ _ _ _ ha hb =>
    have := ha.weight
    have := hb.weight
    rcases ha.pair hb with ⟨rfl, rfl⟩ | hlt
    · exact .inl rfl
    · exact .inr (by cases k <;> simp only [weight] <;> omega)
  | select ha hb hc =>
    have := ha.weight
    rcases hb.pair hc with ⟨rfl, rfl⟩ | hlt
    · rcases ha.strict with rfl | hlt
      · exact .inl rfl
      · exact .inr (by simp only [weight]; omega)
    · exact .inr (by simp only [weight]; omega)

/-! ## The walk -/

/-- A visitor that leaves the node classes alone, and replaces expressions only
by lighter ones of the same value under `σ`. -/
structure ExprVisitor.Replaces (σ : Valuation) (v : ExprVisitor) : Prop where
  node : ∀ f e, v.visitNode f e = some .doChildren
  expr : ∀ {e d}, e.isConstant = false → v.visitExpr e = .changeTo d →
    Simplifies σ e d ∧ d.weight < e.weight
  exprPost : ∀ {e d}, e.isConstant = false → v.visitExprPost e = .changeTo d →
    Simplifies σ e d ∧ d.weight < e.weight

namespace ExprVisitor

variable {v : ExprVisitor}

theorem post_reduces (hv : v.Replaces σ) (e : Expr) : Reduces σ e (v.post e) := by
  unfold post
  split
  · exact .refl
  · next hc =>
    split
    · next d hd =>
      obtain ⟨hs, hlt⟩ := hv.exprPost (Bool.eq_false_of_not_eq_true hc) hd
      exact .of_lt hs hlt
    · exact .refl

theorem visit_reduces (opt : Bool) (hv : v.Replaces σ) : ∀ {n : Nat} {e : Expr},
    e.weight ≤ n → ∃ r, visit opt v n e = some r ∧ Reduces σ e r := by
  intro n
  induction n with
  | zero =>
    intro e h
    have := e.weight_pos
    omega
  | succ n ih =>
    intro e h
    rw [visit]
    split
    · exact ⟨e, rfl, .refl⟩
    next hc =>
    split
    · exact ⟨e, rfl, .refl⟩
    · next d hd =>
      obtain ⟨hs, hlt⟩ := hv.expr (Bool.eq_false_of_not_eq_true hc) hd
      exact ⟨d, rfl, .of_lt hs hlt⟩
    -- The operands are lighter, and so is a node rebuilt over changed ones.
    · obtain ⟨e', he', hover⟩ := Expr.mapKids_overKids (f := visit opt v n)
        (e := e) fun k hk => ih (by
          have := Expr.weight_lt_of_mem_kids hk
          omega)
      have hred := hover.reduces
      simp only [hv.node, he', Option.bind_eq_bind, Option.bind_some]
      split
      · exact ⟨_, rfl, post_reduces hv e⟩
      · next hne =>
        have hreb := hred.rebuild opt hne
        split
        · have hlt := hred.strict.resolve_left hne
          have hle := (rebuild_simplifies σ opt e').weight
          obtain ⟨r, hr, hr'⟩ := ih (e := e'.rebuild opt) (by omega)
          rw [hr]
          exact ⟨_, rfl, hreb.trans (hr'.trans (post_reduces hv r))⟩
        · exact ⟨_, rfl, hreb.trans (post_reduces hv _)⟩

/-- A visitor that may also treat the node classes, and keeps the value under
`σ` if the visits it asks for do. -/
structure Preserves (σ : Valuation) (v : ExprVisitor) : Prop where
  expr : ∀ {e d}, v.visitExpr e = .changeTo d → Simplifies σ e d
  node : ∀ {f e}, (∀ k : Expr, k.weight < e.weight →
      ∃ r, f k = some r ∧ Simplifies σ k r) →
    ∃ a, v.visitNode f e = some a ∧ ∀ d, a = .changeTo d → Simplifies σ e d
  exprPost : ∀ {e d}, v.visitExprPost e = .changeTo d → Simplifies σ e d
  once : v.recursive = false

theorem post_simplifies (hv : v.Preserves σ) (e : Expr) :
    Simplifies σ e (v.post e) := by
  unfold post
  split
  · exact .refl
  · split
    · next d hd => exact hv.exprPost hd
    · exact .refl

theorem visit_simplifies (opt : Bool) (hv : v.Preserves σ) :
    ∀ {n : Nat} {e : Expr}, e.weight ≤ n →
      ∃ r, visit opt v n e = some r ∧ Simplifies σ e r := by
  intro n
  induction n with
  | zero =>
    intro e h
    have := e.weight_pos
    omega
  | succ n ih =>
    intro e h
    have lighter : ∀ k : Expr, k.weight < e.weight →
        ∃ r, visit opt v n k = some r ∧ Simplifies σ k r :=
      fun k hk => ih (by omega)
    rw [visit]
    split
    · exact ⟨e, rfl, .refl⟩
    split
    · exact ⟨e, rfl, .refl⟩
    · next d hd => exact ⟨d, rfl, hv.expr hd⟩
    obtain ⟨a, ha, hchange⟩ := hv.node lighter
    obtain ⟨e', he', hover⟩ := Expr.mapKids_overKids (f := visit opt v n)
      (e := e) fun k hk => lighter k (Expr.weight_lt_of_mem_kids hk)
    simp only [ha, he', Option.bind_eq_bind, Option.bind_some, hv.once]
    split
    · exact ⟨e, rfl, .refl⟩
    · next d => exact ⟨d, rfl, hchange d rfl⟩
    · split
      · exact ⟨_, rfl, post_simplifies hv e⟩
      · exact ⟨_, rfl, ((hover.simplifies id).trans
          (rebuild_simplifies σ opt e')).trans (post_simplifies hv _)⟩

/-! A larger bound changes no answer. -/

/-- `g` answers wherever `f` does, and the same. -/
def Extends (f g : Expr → Option Expr) : Prop :=
  ∀ e r, f e = some r → g e = some r

theorem mapKids_mono {g : Expr → Option Expr} (h : Extends f g)
    (he : e.mapKids f = some r) : e.mapKids g = some r := by
  rw [Expr.mapKids_eq_some] at he ⊢
  exact he.mono (h _ _)

theorem visit_mono {opt : Bool}
    (hv : ∀ {f g}, Extends f g → ∀ {e a}, v.visitNode f e = some a →
      v.visitNode g e = some a) :
    ∀ {n m : Nat}, n ≤ m → Extends (visit opt v n) (visit opt v m) := by
  intro n
  induction n with
  | zero =>
    intro m _ e r h
    simp [visit] at h
  | succ n ih =>
    intro m hm e r h
    obtain ⟨m, rfl⟩ := Nat.exists_eq_add_of_le' (Nat.one_le_of_lt hm)
    have hext := ih (Nat.le_of_succ_le_succ hm)
    rw [visit] at h ⊢
    split at h
    · next hc =>
      rw [if_pos hc]
      exact h
    next hc =>
    rw [if_neg hc]
    split at h
    · exact h
    · exact h
    simp only [Option.bind_eq_bind, Option.bind_eq_some_iff] at h ⊢
    obtain ⟨a, ha, hrest⟩ := h
    refine ⟨a, hv hext ha, ?_⟩
    split at hrest
    · exact hrest
    · exact hrest
    simp only [Option.bind_eq_some_iff] at hrest ⊢
    obtain ⟨e', he', hrest⟩ := hrest
    refine ⟨e', mapKids_mono hext he', ?_⟩
    split at hrest
    · next heq =>
      rw [if_pos heq]
      exact hrest
    next hne =>
    rw [if_neg hne]
    split at hrest
    · next hrec =>
      obtain ⟨t, ht, hrest⟩ := Option.bind_eq_some_iff.mp hrest
      rw [if_pos hrec]
      exact Option.bind_eq_some_iff.mpr ⟨t, hext _ _ ht, hrest⟩
    · next hrec =>
      rw [if_neg hrec]
      exact hrest

end ExprVisitor

end VitalSE
