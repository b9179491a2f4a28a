import VitalSE.Expr.Constraints
import VitalSE.Lib.Runs
import VitalSE.Proofs.VisitorSound

/-!
# Adding a constraint keeps the models

Two facts are followed through the rewriting, one valuation at a time: if all
the constraints hold before, they all hold after; and if one of them is false
before, one is false after. Together they say that the conjunction has the same
models, among the valuations that give every constraint a value.

Rewriting with an equality is sound at the valuations where the equality is
not false, because there its two sides have one value or the rewritten side has
none, and then does not occur in a constraint that has one. At the others the
second fact is immediate: the equality itself is in the result, and is false.

The recursion ends because every constraint that is added again has become
lighter, so that the weight of all constraints together bounds its depth.
-/

namespace VitalSE

variable {e c : Expr} {visit : Expr → Option Expr}
  {add : List Expr → Expr → Except Abort (List Expr)} {ds cs es : List Expr}
  {P : Valuation → Prop}

section

@[simp] theorem constraintsWeight_nil : constraintsWeight [] = 0 := rfl

@[simp] theorem constraintsWeight_cons :
    constraintsWeight (c :: cs) = c.weight + constraintsWeight cs := by
  simp [constraintsWeight]

@[simp] theorem constraintsWeight_append : constraintsWeight (cs ++ ds) =
      constraintsWeight cs + constraintsWeight ds := by
  simp [constraintsWeight]

end

/-- The constraints `ds` may stand for the constraints `cs` at the valuations
in `P`. -/
structure Rewrites (P : Valuation → Prop) (cs ds : List Expr) : Prop where
  boolean : Boolean cs → Boolean ds
  holds : ∀ {σ : Valuation}, P σ → AllHold σ cs → AllHold σ ds
  fails : ∀ {σ : Valuation}, P σ → SomeFails σ cs → SomeFails σ ds
  weight : constraintsWeight ds ≤ constraintsWeight cs

namespace Rewrites

variable {Q : Valuation → Prop} {d : Expr}

theorem refl : Rewrites P cs cs := ⟨id, fun _ => id, fun _ => id, le_rfl⟩

theorem trans (h : Rewrites P cs ds) (h' : Rewrites P ds es) : Rewrites P cs es where
  boolean := h'.boolean ∘ h.boolean
  holds hσ := h'.holds hσ ∘ h.holds hσ
  fails hσ := h'.fails hσ ∘ h.fails hσ
  weight := h'.weight.trans h.weight

theorem mono (hP : ∀ σ, P σ → Q σ) (h : Rewrites Q cs ds) : Rewrites P cs ds where
  boolean := h.boolean
  holds hσ := h.holds (hP _ hσ)
  fails hσ := h.fails (hP _ hσ)
  weight := h.weight

theorem append (h : Rewrites P cs ds) (es : List Expr) : Rewrites P (cs ++ es) (ds ++ es) where
  boolean := by
    simp only [boolean_append]
    exact fun hb => ⟨h.boolean hb.1, hb.2⟩
  holds hσ := by
    simp only [allHold_append]
    exact fun hh => ⟨h.holds hσ hh.1, hh.2⟩
  fails hσ := by
    simp only [someFails_append]
    exact Or.imp_left (h.fails hσ)
  weight := by
    simp only [constraintsWeight_append]
    have := h.weight
    omega

/-- Replace one constraint by an expression of its value. -/
theorem replace (h : ∀ σ, P σ → Simplifies σ c d) (hP : ∃ σ, P σ) :
    Rewrites P (cs ++ [c]) (cs ++ [d]) := by
  obtain ⟨σ0, hσ0⟩ := hP
  refine ⟨?_, ?_, ?_, ?_⟩
  · simp only [boolean_append, boolean_cons]
    exact fun hb => ⟨hb.1, (h σ0 hσ0).typed hb.2.1, hb.2.2⟩
  · intro σ hσ
    simp only [allHold_append, allHold_cons]
    exact fun hh => ⟨hh.1, (h σ hσ).value hh.2.1, hh.2.2⟩
  · intro σ hσ
    simp only [someFails_append, someFails_cons]
    exact Or.imp_right (Or.imp_left (h σ hσ).value)
  · have := (h σ0 hσ0).weight
    simp only [constraintsWeight_append, constraintsWeight_cons]
    omega

theorem dropTrue {v : APInt} (h : ConstantExpr.isTrue v = true) :
    Rewrites P (cs ++ [.constant v]) cs where
  boolean := by
    simp only [boolean_append]
    exact And.left
  holds _ := by
    simp only [allHold_append]
    exact And.left
  fails {σ} _ := by
    simp only [someFails_append, someFails_cons]
    rintro (hf | hf | hf)
    · exact hf
    · rw [ConstantExpr.isTrue_iff.mp h] at hf
      have := APInt.mk_inj.mp (denotes_constant.mp hf).2
      exact absurd this (by decide)
    · simp [SomeFails] at hf
  weight := by simp

/-- Split a conjunction. -/
theorem splitAnd {l r : Expr} : Rewrites P (cs ++ [.binary .and l r]) (cs ++ [l] ++ [r]) where
  boolean := by
    simp only [boolean_append, boolean_cons, typed_binary]
    rintro ⟨hc, ⟨hl, hr⟩, hn⟩
    exact ⟨⟨hc, hl, hn⟩, hr, hn⟩
  holds {σ} _ := by
    simp only [allHold_append, allHold_cons]
    rintro ⟨hc, hand, hn⟩
    obtain ⟨x, y, hx, hy, hxy⟩ := denotes_binary.mp hand
    have : ∀ x y : BitVec 1, BinaryKind.apply .and x y = some 1#1 →
        x = 1#1 ∧ y = 1#1 := by decide
    obtain ⟨rfl, rfl⟩ := this x y hxy
    exact ⟨⟨hc, hx, hn⟩, hy, hn⟩
  fails {σ} _ := by
    simp only [someFails_append, someFails_cons]
    rintro (hc | hand | hn)
    · exact .inl (.inl hc)
    · obtain ⟨x, y, hx, hy, hxy⟩ := denotes_binary.mp hand
      have : ∀ x y : BitVec 1, BinaryKind.apply .and x y = some 0#1 →
          x = 0#1 ∨ y = 0#1 := by decide
      rcases this x y hxy with rfl | rfl
      · exact .inl (.inr (.inl hx))
      · exact .inr (.inl hy)
    · exact .inr (.inr hn)
  weight := by
    simp only [constraintsWeight_append, constraintsWeight_cons, constraintsWeight_nil, Expr.weight]
    omega

end Rewrites

/-! ## The two visitors -/

theorem Expr.one_lt_weight (h : e.isConstant = false) : 1 < e.weight := by
  cases e with
  | constant => simp [isConstant] at h
  | read _ _ i => have := i.weight_pos; simp only [weight]; omega
  | select c _ _ => have := c.weight_pos; simp only [weight]; omega
  | extract e | zext e | sext e | not e | notOptimized e =>
    have := e.weight_pos
    simp only [weight]
    omega
  | concat l r => have := l.weight_pos; simp only [weight]; omega
  | binary k l r | cmp k l r =>
    exact Nat.lt_of_le_of_lt l.weight_pos (weight_lt_of_mem_kids (by simp [kids]))

section

variable {σ : Valuation} {d right : Expr} {v : APInt}

section

variable (ht : Typed (.cmp .eq (.constant v) right) 1)
  (hσ : ¬Fails σ (.cmp .eq (.constant v) right))

include ht hσ

/-- What an equality that is not false lets its right side be. -/
theorem simplifies_of_eq : Simplifies σ right (.constant v) := by
  obtain ⟨-, u, hv, hr⟩ := typed_cmp.mp ht
  refine ⟨fun h => hr.unique h ▸ hv, fun {w x} hx => ?_, right.weight_pos⟩
  obtain rfl := hr.unique hx.typed
  obtain ⟨y, rfl⟩ := APInt.exists_bits (typed_constant.mp hv).2
  have hy : Denotes σ (.constant ⟨u, y⟩) y := denotes_constant.mpr ⟨hx.typed.pos, rfl⟩
  by_cases hxy : y = x
  · exact hxy ▸ hy
  · refine absurd (denotes_cmp.mpr ⟨u, y, x, hy, hx, ?_⟩) hσ
    rw [CmpKind.apply, beq_false_of_ne hxy]
    rfl

theorem exprReplaceVisitor_replaces : (exprReplaceVisitor right (.constant v)).Replaces σ := by
  have key : ∀ {e d : Expr}, e.isConstant = false →
      (if e = right then Action.changeTo (.constant v) else .doChildren) =
        .changeTo d → Simplifies σ e d ∧ d.weight < e.weight := by
    intro e d hc h
    split at h
    · next he =>
      obtain rfl := he
      obtain rfl : Expr.constant v = d := by simpa using h
      exact ⟨simplifies_of_eq ht hσ, Expr.one_lt_weight hc⟩
    · simp at h
  exact ⟨fun _ _ => rfl, key, key⟩

end

theorem equality_simplifies (ht : Typed c 1) (hσ : ¬Fails σ c)
    (h : ConstraintManager.equality c = (e, d)) : Simplifies σ e d ∧ d.weight = 1 := by
  unfold ConstraintManager.equality at h
  split at h
  · obtain ⟨rfl, rfl⟩ := Prod.mk.inj h
    exact ⟨simplifies_of_eq ht hσ, rfl⟩
  · obtain ⟨rfl, rfl⟩ := Prod.mk.inj h
    refine ⟨⟨fun {w} hw => ?_, fun {w x} hx => ?_, c.weight_pos⟩, rfl⟩
    · obtain rfl := ht.unique hw
      exact typed_const.mpr ⟨by decide, rfl⟩
    · obtain rfl := ht.unique hx.typed
      have : x = 1#1 := by
        rcases holds_or_fails hx with h | h
        · exact hx.unique h
        · exact absurd h hσ
      exact denotes_const.mpr ⟨by decide, this⟩

theorem exprReplaceVisitor2_replaces (ht : Boolean cs) (hσ : ¬SomeFails σ cs) :
    (exprReplaceVisitor2 (cs.map ConstraintManager.equality)).Replaces σ := by
  refine ⟨fun _ _ => rfl, fun _ h => by simp [exprReplaceVisitor2] at h, ?_⟩
  intro e d hc h
  simp only [exprReplaceVisitor2] at h
  split at h
  · next d' hd =>
    obtain rfl : d' = d := by simpa using h
    obtain ⟨_, _, hsplit, -⟩ := List.lookup_eq_some_iff.mp hd
    obtain ⟨c, hmem, heq⟩ : ∃ c ∈ cs, ConstraintManager.equality c = (e, d') :=
      List.mem_map.mp (by simp [hsplit])
    obtain ⟨hs, hw⟩ := equality_simplifies (ht c hmem)
      (fun hf => hσ ⟨c, hmem, hf⟩) heq
    exact ⟨hs, hw ▸ Expr.one_lt_weight hc⟩
  · simp at h

end

/-! ## Rewriting and adding -/

namespace ConstraintManager

variable {opt rewriteEqualities : Bool} {σ0 : Valuation} {m n : Nat}

/-- The loop over the old constraints, given what the visitor and the adding
of one constraint do within the bound `n`. It is by induction on the old
constraints; the collected ones and the old ones together are rewritten. -/
theorem rewriteLoop_rewrites (hσ0 : P σ0) (hvisit : ∀ c, c.weight ≤ n →
      ∃ r, visit c = some r ∧ ∀ σ, P σ → Simplifies σ c r)
    (hadd : ∀ cs c, Boolean (cs ++ [c]) → AllHold σ0 (cs ++ [c]) →
      constraintsWeight (cs ++ [c]) ≤ n →
      ∃ ds, add cs c = .ok ds ∧ Rewrites (fun _ => True) (cs ++ [c]) ds) :
    ∀ (old cs : List Expr) (changed : Bool), Boolean (cs ++ old) →
      AllHold σ0 (cs ++ old) → constraintsWeight (cs ++ old) ≤ n →
      ∃ ds changed', rewriteLoop visit add old cs changed = .ok (ds, changed') ∧
        Rewrites P (cs ++ old) ds := by
  intro old
  induction old with
  | nil =>
    intro cs changed _ _ _
    exact ⟨cs, changed, rfl, by simpa using .refl⟩
  | cons c old ih =>
    intro cs changed hb hh hw
    rw [List.append_cons] at hb hh hw ⊢
    obtain ⟨r, hr, hs⟩ := hvisit c (by
      simp only [constraintsWeight_append, constraintsWeight_cons] at hw
      omega)
    simp only [rewriteLoop, hr]
    split
    · -- The rewritten constraint is added to the ones collected so far.
      have hcr : Rewrites P (cs ++ [c]) (cs ++ [r]) := .replace hs ⟨σ0, hσ0⟩
      have hlr := hcr.append old
      have hb' := hlr.boolean hb
      have hh' := hlr.holds hσ0 hh
      have hw' := hlr.weight
      obtain ⟨ds, hds, hrw⟩ := hadd cs r (boolean_append.mp hb').1
        (allHold_append.mp hh').1 (by
          simp only [constraintsWeight_append] at hw hw' ⊢
          omega)
      have hall := hlr.trans ((hrw.mono fun _ _ => trivial).append old)
      obtain ⟨es, ch, hes, hrest⟩ := ih ds true (hall.boolean hb)
        (hall.holds hσ0 hh) (hall.weight.trans hw)
      exact ⟨es, ch, by rw [hds]; exact hes, hall.trans hrest⟩
    · exact ih (cs ++ [c]) changed hb hh hw

/-- The equality that the others were rewritten with stays in the set, so at
a valuation where it is false nothing else is needed. -/
theorem rewrites_of_not_fails (h : Rewrites (fun σ => ¬Fails σ e) cs ds) :
    Rewrites (fun _ => True) (cs ++ [e]) (ds ++ [e]) where
  boolean := (h.append [e]).boolean
  holds {σ} _ hh := by
    have he : Holds σ e := (allHold_append.mp hh).2 e (by simp)
    exact (h.append [e]).holds he.not_fails hh
  fails {σ} _ hf := by
    by_cases he : Fails σ e
    · exact ⟨e, by simp, he⟩
    · exact (h.append [e]).fails he hf
  weight := (h.append [e]).weight

theorem addConstraintInternal_rewrites (opt rewriteEqualities : Bool) :
    ∀ (n : Nat) (cs : List Expr) (e : Expr), Boolean (cs ++ [e]) → AllHold σ0 (cs ++ [e]) →
    constraintsWeight (cs ++ [e]) ≤ n →
    ∃ ds, addConstraintInternal opt rewriteEqualities n cs e = .ok ds ∧
      Rewrites (fun _ => True) (cs ++ [e]) ds := by
  intro n
  induction n with
  | zero =>
    intro cs e _ _ hw
    have := e.weight_pos
    simp only [constraintsWeight_append, constraintsWeight_cons] at hw
    omega
  | succ n ih =>
    intro cs e hb hh hw
    rw [addConstraintInternal.eq_def]
    simp only
    split
    · -- A constant that holds is the true one.
      next v =>
      have hv : Holds σ0 (.constant v) := (allHold_append.mp hh).2 _ (by simp)
      have htrue : ConstantExpr.isTrue v = true :=
        ConstantExpr.isTrue_iff.mpr (denotes_constant.mp hv).2
      exact ⟨cs, by simp [htrue], .dropTrue htrue⟩
    · next l r =>
      have hand : Rewrites (fun _ => True) (cs ++ [.binary .and l r])
        (cs ++ [l] ++ [r]) := .splitAnd
      have hlt : constraintsWeight (cs ++ [l] ++ [r]) ≤ n := by
        simp only [constraintsWeight_append, constraintsWeight_cons,
          constraintsWeight_nil, Expr.weight] at hw ⊢
        omega
      have hb' := hand.boolean hb
      have hh' := hand.holds (σ := σ0) trivial hh
      obtain ⟨ds, hds, hl⟩ := ih cs l (boolean_append.mp hb').1
        (allHold_append.mp hh').1 (by
          rw [constraintsWeight_append] at hlt
          omega)
      have hl' := hl.append [r]
      obtain ⟨es, hes, hr⟩ := ih ds r (hl'.boolean hb')
        (hl'.holds (σ := σ0) trivial hh') (hl'.weight.trans hlt)
      exact ⟨es, by rw [hds]; exact hes, hand.trans (hl'.trans hr)⟩
    · next v right =>
      split
      · set e := Expr.cmp .eq (.constant v) right
        have ht : Typed e 1 := (boolean_append.mp hb).2 e (by simp)
        have hσ0 : ¬Fails σ0 e :=
          Holds.not_fails ((allHold_append.mp hh).2 e (by simp))
        have hw' : constraintsWeight cs ≤ n := by
          have := e.weight_pos
          simp only [constraintsWeight_append, constraintsWeight_cons, constraintsWeight_nil] at hw
          omega
        obtain ⟨ds, ch, hds, hrw⟩ := rewriteLoop_rewrites
          (P := fun σ => ¬Fails σ e) hσ0
          (fun c hc => by
            obtain ⟨r, hr, -⟩ := ExprVisitor.visit_reduces opt
              (exprReplaceVisitor_replaces ht hσ0) hc
            refine ⟨r, hr, fun σ hσ => ?_⟩
            obtain ⟨r', hr', hred⟩ := ExprVisitor.visit_reduces opt
              (exprReplaceVisitor_replaces ht hσ) hc
            obtain rfl : r = r' := Option.some.inj (hr.symm.trans hr')
            exact hred.toSimplifies)
          ih cs [] false (by simpa using (boolean_append.mp hb).1)
          (by simpa using (allHold_append.mp hh).1) (by simpa using hw')
        refine ⟨ds ++ [e], by rw [hds]; rfl, rewrites_of_not_fails ?_⟩
        simpa using hrw
      · exact ⟨_, rfl, .refl⟩
    · exact ⟨_, rfl, .refl⟩

theorem simplifyExpr_simplifies (opt : Bool) (hb : Boolean cs) (hσ0 : ¬SomeFails σ0 cs)
    (hn : e.weight ≤ n) : ∃ e', simplifyExpr opt n cs e = .ok e' ∧
      ∀ σ, ¬SomeFails σ cs → Simplifies σ e e' := by
  unfold simplifyExpr
  split
  · exact ⟨e, rfl, fun _ _ => .refl⟩
  · obtain ⟨r, hr, -⟩ := ExprVisitor.visit_reduces opt
      (exprReplaceVisitor2_replaces hb hσ0) hn
    refine ⟨r, by rw [hr], fun σ hσ => ?_⟩
    obtain ⟨r', hr', hred⟩ := ExprVisitor.visit_reduces opt
      (exprReplaceVisitor2_replaces hb hσ) hn
    obtain rfl : r = r' := Option.some.inj (hr.symm.trans hr')
    exact hred.toSimplifies

theorem addConstraint_rewrites (opt rewriteEqualities : Bool) (hb : Boolean (cs ++ [e]))
    (hh : AllHold σ0 (cs ++ [e])) (hn : constraintsWeight (cs ++ [e]) ≤ n) :
    ∃ ds, addConstraint opt rewriteEqualities n cs e = .ok ds ∧
      Rewrites (fun _ => True) (cs ++ [e]) ds := by
  have hσ0 : ¬SomeFails σ0 cs := fun ⟨c, hc, hf⟩ =>
    Holds.not_fails (hh c (by simp [hc])) hf
  obtain ⟨e', he', hs⟩ := simplifyExpr_simplifies opt
    (boolean_append.mp hb).1 hσ0 (show e.weight ≤ n by
      simp only [constraintsWeight_append, constraintsWeight_cons] at hn
      omega)
  have hrep : Rewrites (fun σ => ¬SomeFails σ cs) (cs ++ [e]) (cs ++ [e']) :=
    .replace hs ⟨σ0, hσ0⟩
  -- Where a constraint of the set is false, it still is.
  have hall : Rewrites (fun _ => True) (cs ++ [e]) (cs ++ [e']) := by
    refine ⟨hrep.boolean, fun {σ} _ h => ?_, fun {σ} _ h => ?_, hrep.weight⟩
    · exact hrep.holds (fun ⟨c, hc, hf⟩ =>
        Holds.not_fails (h c (by simp [hc])) hf) h
    · by_cases hσ : SomeFails σ cs
      · exact someFails_append.mpr (.inl hσ)
      · exact hrep.fails hσ h
  obtain ⟨ds, hds, hrw⟩ := addConstraintInternal_rewrites opt
    rewriteEqualities n cs e'
    (hall.boolean hb) (hall.holds (σ := σ0) trivial hh) (hall.weight.trans hn)
  exact ⟨ds, by rw [addConstraint, he']; exact hds, hall.trans hrw⟩

/-! A larger bound changes no result. -/

theorem rewriteLoop_mono {visit' : Expr → Option Expr}
    {add' : List Expr → Expr → Except Abort (List Expr)} (hvisit : ExprVisitor.Extends visit visit')
    (hadd : ∀ {cs e ds}, add cs e = .ok ds → add' cs e = .ok ds) :
    ∀ {old cs ds : List Expr} {changed changed' : Bool},
      rewriteLoop visit add old cs changed = .ok (ds, changed') →
      rewriteLoop visit' add' old cs changed = .ok (ds, changed') := by
  intro old
  induction old with
  | nil => exact fun h => h
  | cons c old ih =>
    intro cs ds changed changed' h
    simp only [rewriteLoop] at h ⊢
    split at h
    · simp at h
    next r hr =>
    rw [hvisit _ _ hr]
    simp only
    split at h
    · next hne =>
      rw [if_pos hne]
      obtain ⟨es, hes, h⟩ := Except.bind_eq_ok.mp h
      rw [hadd hes]
      exact ih h
    · next hne =>
      rw [if_neg hne]
      exact ih h

theorem addConstraintInternal_mono : ∀ {n m : Nat} {cs ds : List Expr} {e : Expr},
    n ≤ m → addConstraintInternal opt rewriteEqualities n cs e = .ok ds →
    addConstraintInternal opt rewriteEqualities m cs e = .ok ds := by
  intro n
  induction n with
  | zero =>
    intro m cs ds e _ h
    simp [addConstraintInternal] at h
  | succ n ih =>
    intro m cs ds e hm h
    obtain ⟨m, rfl⟩ := Nat.exists_eq_add_of_le' (Nat.one_le_of_lt hm)
    have hm' := Nat.le_of_succ_le_succ hm
    rw [addConstraintInternal.eq_def] at h ⊢
    simp only at h ⊢
    split at h
    · exact h
    · next l r =>
      obtain ⟨es, hes, h⟩ := Except.bind_eq_ok.mp h
      rw [ih hm' hes]
      exact ih hm' h
    · next v right =>
      split at h
      · next hre =>
        rw [if_pos hre]
        obtain ⟨es, hes, h⟩ := Except.bind_eq_ok.mp h
        rw [rewriteLoop_mono (ExprVisitor.visit_mono (fun _ _ _ h => h) hm')
        (fun h => ih hm' h) hes]
        exact h
      · next hre =>
        rw [if_neg hre]
        exact h
    · exact h

theorem simplifyExpr_mono {e' : Expr} (hm : n ≤ m)
    (h : simplifyExpr opt n cs e = .ok e') : simplifyExpr opt m cs e = .ok e' := by
  simp only [simplifyExpr] at h ⊢
  split at h
  · next hc =>
    rw [if_pos hc]
    exact h
  next hc =>
  rw [if_neg hc]
  split at h
  · next r hr =>
    rw [ExprVisitor.visit_mono (fun _ _ _ h => h) hm _ _ hr]
    exact h
  · cases h

theorem addConstraint_mono (hm : n ≤ m) (h : addConstraint opt rewriteEqualities n cs e = .ok ds) :
    addConstraint opt rewriteEqualities m cs e = .ok ds := by
  rw [addConstraint] at h ⊢
  obtain ⟨e', he', h⟩ := Except.bind_eq_ok.mp h
  rw [simplifyExpr_mono hm he']
  exact addConstraintInternal_mono hm h

/-- Adding a constraint that the set is satisfiable with terminates without
reaching the assertion, and the new set has the models of the old set and the
constraint among the valuations under which these divide by no zero and read no
constant array out of bounds. -/
theorem addConstraint_equiv (constArrayOpt rewriteEqualities : Bool)
    (cs : List Expr) (e : Expr) (hcs : ∀ c ∈ cs, Typed c 1) (he : Typed e 1)
    (hsat : ∃ σ, AllHold σ cs ∧ Holds σ e) :
    ∃ ds,
      (∃ bound, ∀ fuel, bound ≤ fuel →
        addConstraint constArrayOpt rewriteEqualities fuel cs e = .ok ds) ∧
      (∀ d ∈ ds, Typed d 1) ∧
      ∀ σ, (∀ c ∈ cs, (c.eval σ).isSome) → (e.eval σ).isSome →
        (AllHold σ ds ↔ AllHold σ cs ∧ Holds σ e) := by
  obtain ⟨σ0, hσcs, hσe⟩ := hsat
  have hb : Boolean (cs ++ [e]) := boolean_snoc.mpr ⟨hcs, he⟩
  obtain ⟨ds, hds, hrw⟩ := addConstraint_rewrites constArrayOpt
    rewriteEqualities hb (allHold_snoc.mpr ⟨hσcs, hσe⟩) le_rfl
  refine ⟨ds, ⟨_, fun fuel hfuel => addConstraint_mono hfuel hds⟩,
    hrw.boolean hb, fun σ hvcs hve => ?_⟩
  rw [← allHold_snoc]
  constructor
  · -- Were one of them false, one of the new ones would be.
    intro h c hc
    have hv : (c.eval σ).isSome := by
      rcases List.mem_append.mp hc with h | h
      · exact hvcs c h
      · exact List.mem_singleton.mp h ▸ hve
    obtain ⟨v, hv⟩ := Option.isSome_iff_exists.mp hv
    obtain ⟨x, rfl, hx⟩ := (hb c hc).denotes hv
    rcases holds_or_fails hx with h' | h'
    · exact h'
    · obtain ⟨d, hd, hf⟩ := hrw.fails trivial ⟨c, hc, h'⟩
      exact absurd hf (h d hd).not_fails
  · exact hrw.holds trivial

/-- `arr[0] = 3` added to `arr[1] < arr[0]`. -/
theorem addConstraint_equiv_rewrite :
    let read (i : Nat) := Expr.read Array.four .null (Expr.const i 32)
    let cs := [Expr.cmp .ult (read 1) (read 0)]
    let e := Expr.cmp .eq (Expr.const 3 8) (read 0)
    (∃ σ, AllHold σ cs ∧ Holds σ e) ∧
      ∃ ds,
        (∃ bound, ∀ fuel, bound ≤ fuel →
          addConstraint true true fuel cs e = .ok ds) ∧
        (∀ d ∈ ds, Typed d 1) ∧
        ∀ σ, (∀ c ∈ cs, (c.eval σ).isSome) → (e.eval σ).isSome →
          (AllHold σ ds ↔ AllHold σ cs ∧ Holds σ e) := by
  intro read cs e
  have hcs : ∀ c ∈ cs, Typed c 1 := List.forall_mem_singleton.mpr ⟨by decide, rfl⟩
  have he : Typed e 1 := ⟨by decide, rfl⟩
  have hsat : ∃ σ, AllHold σ cs ∧ Holds σ e :=
    ⟨fun _ i => if i = 0 then 3 else 0,
      fun c hc => ⟨hcs c hc, List.mem_singleton.mp hc ▸ by decide⟩,
      ⟨he, by decide⟩⟩
  exact ⟨hsat, addConstraint_equiv true true cs e hcs he hsat⟩

/-- Simplifying with a satisfiable set terminates, with a bound on its depth
that does not depend on the set, and keeps the width of the expression and its
value under each model of the set. -/
theorem simplifyExpr_keeps_value (constArrayOpt : Bool) (cs : List Expr)
    (e : Expr) (hcs : ∀ c ∈ cs, Typed c 1) (hsat : ∃ σ, AllHold σ cs) :
    ∃ e', (∀ fuel, e.weight ≤ fuel →
        simplifyExpr constArrayOpt fuel cs e = .ok e') ∧
      (∀ w, Typed e w → Typed e' w) ∧
      ∀ σ, AllHold σ cs → ∀ (w : Nat) (x : BitVec w), Denotes σ e x →
        Denotes σ e' x := by
  obtain ⟨σ0, hσ0⟩ := hsat
  obtain ⟨e', he', hs⟩ := simplifyExpr_simplifies constArrayOpt hcs
    hσ0.not_someFails (le_refl e.weight)
  refine ⟨e', fun fuel hfuel => simplifyExpr_mono hfuel he', fun w => ?_,
    fun σ hσ w x => ?_⟩
  · exact (hs σ0 hσ0.not_someFails).typed
  · exact (hs σ hσ.not_someFails).value

/-- `arr[0] + arr[1]` where `arr[1] = 3`. -/
theorem simplifyExpr_keeps_value_three :
    let read (i : Nat) := Expr.read Array.four .null (Expr.const i 32)
    let cs := [.cmp .eq (Expr.const 3 8) (read 1)]
    let e := Expr.binary .add (read 0) (read 1)
    (∀ c ∈ cs, Typed c 1) ∧ (∃ σ, AllHold σ cs) ∧
      ∃ e', (∀ fuel, e.weight ≤ fuel → simplifyExpr true fuel cs e = .ok e') ∧
        (∀ w, Typed e w → Typed e' w) ∧
        ∀ σ, AllHold σ cs → ∀ (w : Nat) (x : BitVec w), Denotes σ e x →
          Denotes σ e' x := by
  intro read cs e
  have hc : Typed (.cmp .eq (Expr.const 3 8) (read 1)) 1 := ⟨by decide, rfl⟩
  have hcs : ∀ c ∈ cs, Typed c 1 := fun c h => List.mem_singleton.mp h ▸ hc
  have hsat : ∃ σ, AllHold σ cs := ⟨fun _ _ => 3, fun c h =>
    List.mem_singleton.mp h ▸ ⟨hc, by decide⟩⟩
  exact ⟨hcs, hsat, simplifyExpr_keeps_value true cs e hcs hsat⟩

end ConstraintManager

end VitalSE
