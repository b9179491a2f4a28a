import VitalSE.Proofs.CachingSound
import VitalSE.Solver.IndependentSolver

/-!
# Independent constraints

The value of an expression is determined by the bytes that its element set
touches. Two models can therefore be spliced: from the one the bytes that the
query and the constraints passed on depend on, from the other the rest. What
the closure computes is that the constraints left out depend on the rest only,
so that the splice of a model of the constraints passed on with a model of all
constraints is a model of all constraints in which the query has the value it
has in the first. An answer for the constraints passed on is then an answer for
all of them.

The closure is reached: a pass that changes the bytes takes a constraint off the
list.
-/

namespace VitalSE

variable {σ τ : Valuation} {root : Array} {re : FoundRead} {ws : List Array}

/-! ## Bytes that determine a value -/

/-- A set of bytes of arrays. -/
abbrev Bytes := Array → Nat → Prop

/-- The value of `e` depends on the bytes in `P` only. -/
def Determines (P : Bytes) (e : Expr) : Prop :=
  ∀ σ τ : Valuation, (∀ a i, P a i → σ a i = τ a i) → e.eval σ = e.eval τ

open Classical in
/-- The bytes in `P` from the first valuation, the others from the second. -/
noncomputable def Valuation.splice (P : Bytes) (σ τ : Valuation) : Valuation :=
  fun a i => if P a i then σ a i else τ a i

/-- Valuations that can be spliced, such as all of them. -/
def Spliceable (A : Valuation → Prop) : Prop :=
  ∀ P σ τ, A σ → A τ → A (Valuation.splice P σ τ)

section

variable {P Q : Bytes} {e : Expr}

theorem Determines.mono (h : Determines P e) (hPQ : ∀ a i, P a i → Q a i) :
    Determines Q e := fun σ τ hagree => h σ τ fun a i hP => hagree a i (hPQ a i hP)

theorem Determines.eval_splice (h : Determines P e) : e.eval (.splice P σ τ) = e.eval σ :=
  h _ _ fun _ _ hP => if_pos hP

theorem Determines.eval_splice_rest (h : Determines (fun a i => ¬P a i) e) :
    e.eval (.splice P σ τ) = e.eval τ :=
  h _ _ fun _ _ hP => if_neg hP

theorem denotes_congr {w : Nat} {x : BitVec w} (h : e.eval σ = e.eval τ) :
    Denotes σ e x ↔ Denotes τ e x := by
  constructor
  · exact fun hx => ⟨hx.typed, h ▸ hx.eval_eq⟩
  · exact fun hx => ⟨hx.typed, h.symm ▸ hx.eval_eq⟩

end

/-! ## Reads -/

/-- The valuations agree on what a read takes from its array. -/
def FoundRead.Agrees (σ τ : Valuation) (re : FoundRead) : Prop :=
  re.root.isConstantArray = true ∨
    match re.index with
    | .constant ce =>
      σ re.root (ce.toNat % 2 ^ 32) = τ re.root (ce.toNat % 2 ^ 32)
    | _ => ∀ i, σ re.root i = τ re.root i

theorem readUpdates_congr {i : BitVec 32}
    (h : root.isConstantArray = true ∨ σ root i.toNat = τ root i.toNat) :
    ∀ us, readUpdates σ root i us = readUpdates τ root i us
  | [] => by
    rw [readUpdates, readUpdates, Array.initialValue, Array.initialValue]
    split
    · rfl
    · next hsym => rw [h.resolve_left hsym]
  | (j, v) :: us => by
    rw [readUpdates, readUpdates, readUpdates_congr h us]

theorem FoundRead.Agrees.base {head : UpdateNode} {index : Expr}
    (h : FoundRead.Agrees σ τ ⟨root, head, index⟩) {v : APInt}
    (hv : index.eval σ = some v) : root.isConstantArray = true ∨
      σ root (v.bits.setWidth 32).toNat = τ root (v.bits.setWidth 32).toNat := by
  refine h.imp_right fun h => ?_
  split at h
  · next ce heq =>
    have heq : index = .constant ce := heq
    rw [heq, Expr.eval, Option.some.injEq] at hv
    rw [← hv, BitVec.toNat_setWidth]
    exact h
  · exact h _

mutual

/-- Valuations that agree on all reads give an expression one value. -/
theorem Expr.eval_congr : ∀ {e : Expr},
    (∀ re ∈ e.findReads, re.Agrees σ τ) → e.eval σ = e.eval τ
  | .constant _, _ => rfl
  | .notOptimized src, h => Expr.eval_congr (e := src) h
  | .read root head index, h => by
    rw [Expr.findReads, List.forall_mem_cons] at h
    obtain ⟨hread, h⟩ := h
    rw [List.forall_mem_append] at h
    rw [Expr.eval, Expr.eval, UpdateNode.eval_congr h.2, ← Expr.eval_congr h.1]
    cases hv : index.eval σ with
    | none => rfl
    | some v =>
      simp only [Option.bind_eq_bind, Option.bind_some]
      simp only [readUpdates_congr (hread.base hv)]
  | .select c t f, h => by
    rw [Expr.findReads, List.forall_mem_append, List.forall_mem_append] at h
    rw [Expr.eval, Expr.eval, Expr.eval_congr h.1.1, Expr.eval_congr h.1.2, Expr.eval_congr h.2]
  | .extract e _ _, h | .zext e _, h | .sext e _, h | .not e, h => by
    rw [Expr.eval, Expr.eval, Expr.eval_congr (e := e) h]
  | .concat l r, h | .binary _ l r, h | .cmp _ l r, h => by
    rw [Expr.findReads, List.forall_mem_append] at h
    rw [Expr.eval, Expr.eval, Expr.eval_congr h.1, Expr.eval_congr h.2]

theorem UpdateNode.eval_congr : ∀ {n : UpdateNode},
    (∀ re ∈ n.findReads, re.Agrees σ τ) → n.eval σ = n.eval τ
  | .null, _ => rfl
  | .node next i v, h => by
    rw [UpdateNode.findReads, List.forall_mem_append, List.forall_mem_append] at h
    rw [UpdateNode.eval, UpdateNode.eval, UpdateNode.eval_congr h.2,
      Expr.eval_congr h.1.1, Expr.eval_congr h.1.2]

end

/-! ## Element sets -/

namespace DenseSet

variable {s b : List Nat} {x y : Nat} {st : List Nat × Bool}

theorem mem_add : y ∈ add s x ↔ y ∈ s ∨ y = x := by
  unfold add
  split
  · next h => exact (or_iff_left_of_imp fun hy => hy ▸ h).symm
  · simp

theorem mem_foldl_addStep : y ∈ (b.foldl addStep st).1 ↔ y ∈ st.1 ∨ y ∈ b := by
  induction b generalizing st with
  | nil => simp
  | cons x b ih =>
    rw [List.foldl_cons, ih, List.mem_cons, ← or_assoc]
    refine or_congr_left ?_
    unfold addStep
    split
    · exact mem_add
    · next h =>
      have hx : x ∈ st.1 := by simp at h; exact h.2
      exact (or_iff_left_of_imp fun hy => hy ▸ hx).symm

theorem foldl_addStep_unmodified (h : (b.foldl addStep st).2 = false) :
    st.2 = false ∧ ∀ y ∈ b, y ∈ st.1 := by
  induction b generalizing st with
  | nil => exact ⟨h, by simp⟩
  | cons x b ih =>
    obtain ⟨hst, hb⟩ := ih h
    unfold addStep at hst hb
    split at hst
    · cases hst
    · next hx =>
      rw [if_neg hx] at hb
      have hx : x ∈ st.1 := by simp at hx; exact hx.2
      exact ⟨hst, List.forall_mem_cons.mpr ⟨hx, hb⟩⟩

end DenseSet

namespace IndependentElementSet

/-- The bytes of a set. -/
def Touches (x : IndependentElementSet) : Bytes := fun array i =>
  array ∈ x.wholeObjects ∨ i ∈ x.elementsOf array

variable {x b : IndependentElementSet} {array a : Array} {i : Nat}
  {st : IndependentElementSet × Bool} {es : List (Sigma fun _ : Array => List Nat)}
  {it : Sigma fun _ : Array => List Nat}

theorem touches_insertWhole : (x.insertWhole array).Touches a i ↔ a = array ∨ x.Touches a i := by
  by_cases ha : a = array
  · subst ha
    refine iff_of_true (.inl ?_) (.inl rfl)
    unfold insertWhole
    split
    · next h => exact h
    · simp
  · simp only [Touches, insertWhole, elementsOf, AList.lookup_erase_ne ha]
    split <;> simp [ha]

theorem touches_insert {dis : List Nat} :
    Touches { x with elements := x.elements.insert array dis } a i ↔
      a ∈ x.wholeObjects ∨ if a = array then i ∈ dis else i ∈ x.elementsOf a := by
  simp only [Touches, elementsOf]
  by_cases ha : a = array
  · subst ha
    rw [AList.lookup_insert, if_pos rfl, Option.getD_some]
  · rw [AList.lookup_insert_ne ha, if_neg ha]

theorem touches_addRead (h : x.Touches a i) : (x.addRead re).Touches a i := by
  unfold addRead
  split
  · exact h
  split
  · exact h
  split
  · rw [touches_insert]
    refine h.imp_right fun h => ?_
    split
    · next ha => exact DenseSet.mem_add.mpr (.inl (ha ▸ h))
    · exact h
  · exact touches_insertWhole.mpr (.inr h)

/-- What a read takes from its array is touched. -/
theorem agrees_addRead (h : ∀ a i, (x.addRead re).Touches a i → σ a i = τ a i) : re.Agrees σ τ := by
  unfold addRead at h
  split at h
  · next hskip => exact .inl (Bool.and_eq_true_iff.mp hskip).1
  split at h
  · next hwhole =>
    refine .inr ?_
    split
    · exact h _ _ (.inl hwhole)
    · exact fun i => h _ _ (.inl hwhole)
  · refine .inr ?_
    cases hindex : re.index with
    | constant ce =>
      simp only [hindex] at h ⊢
      refine h _ _ (touches_insert.mpr (.inr ?_))
      rw [if_pos rfl]
      exact DenseSet.mem_add.mpr (.inr rfl)
    | _ =>
      simp only [hindex] at h ⊢
      exact fun i => h _ _ (touches_insertWhole.mpr (.inl rfl))

theorem agrees_foldl : ∀ {reads : List FoundRead}
    {x : IndependentElementSet},
    (∀ a i, (reads.foldl addRead x).Touches a i → σ a i = τ a i) →
    (∀ a i, x.Touches a i → σ a i = τ a i) ∧ ∀ re ∈ reads, re.Agrees σ τ
  | [], _, h => ⟨h, by simp⟩
  | re :: reads, x, h => by
    obtain ⟨hx, hreads⟩ := agrees_foldl (x := x.addRead re) h
    refine ⟨fun a i ht => hx a i (touches_addRead ht), List.forall_mem_cons.mpr ⟨?_, hreads⟩⟩
    exact agrees_addRead hx

/-- The bytes of an expression determine its value. -/
theorem determines_ofExpr (e : Expr) : Determines (ofExpr e).Touches e :=
  fun _ _ h => Expr.eval_congr (agrees_foldl h).2

/-! ## Unions -/

theorem touches_addWhole : (addWhole st array).1.Touches a i ↔ a = array ∨ st.1.Touches a i := by
  unfold addWhole
  split
  · exact touches_insertWhole
  · split
    · next h => exact (or_iff_right_of_imp fun ha => .inl (ha ▸ h)).symm
    · exact touches_insertWhole

theorem addWhole_unmodified (h : (addWhole st array).2 = false) :
    st.2 = false ∧ array ∈ st.1.wholeObjects := by
  unfold addWhole at h
  split at h
  · cases h
  · split at h
    · next hin => exact ⟨h, hin⟩
    · cases h

theorem touches_addElements : (addElements st it).1.Touches a i ↔
      (a = it.1 ∧ i ∈ it.2) ∨ st.1.Touches a i := by
  unfold addElements
  split
  · next h => exact (or_iff_right_of_imp fun ha => .inl (ha.1 ▸ h)).symm
  · split
    · next hnone =>
      rw [touches_insert]
      split
      · next ha =>
        subst ha
        simp [Touches, elementsOf, hnone, or_comm]
      · next ha => simp [Touches, ha]
    · next dis hdis =>
      rw [touches_insert]
      split
      · next ha =>
        subst ha
        rw [DenseSet.addAll, DenseSet.mem_foldl_addStep]
        simp only [Touches, elementsOf, hdis, Option.getD_some, true_and]
        tauto
      · next ha => simp [Touches, ha]

theorem addElements_unmodified (h : (addElements st it).2 = false) :
    st.2 = false ∧ ∀ i ∈ it.2, st.1.Touches it.1 i := by
  unfold addElements at h
  split at h
  · next hin => exact ⟨h, fun _ _ => .inl hin⟩
  · split at h
    · cases h
    · next dis hdis =>
      obtain ⟨hst, hmod⟩ := Bool.or_eq_false_iff.mp h
      refine ⟨hst, fun i hi => .inr ?_⟩
      rw [elementsOf, hdis]
      exact (DenseSet.foldl_addStep_unmodified hmod).2 i hi

theorem touches_foldl_addWhole :
    (ws.foldl addWhole st).1.Touches a i ↔ a ∈ ws ∨ st.1.Touches a i := by
  induction ws generalizing st with
  | nil => simp
  | cons w ws ih =>
    rw [List.foldl_cons, ih, touches_addWhole, List.mem_cons]
    tauto

theorem foldl_addWhole_unmodified (h : (ws.foldl addWhole st).2 = false) :
    st.2 = false ∧ ∀ w ∈ ws, ∀ i, st.1.Touches w i := by
  induction ws generalizing st with
  | nil => exact ⟨h, by simp⟩
  | cons w ws ih =>
    obtain ⟨hst, hws⟩ := ih h
    obtain ⟨hst, hw⟩ := addWhole_unmodified hst
    refine ⟨hst, List.forall_mem_cons.mpr ⟨fun i => .inl hw, fun w' hw' i => ?_⟩⟩
    rcases touches_addWhole.mp (hws w' hw' i) with rfl | ht
    · exact .inl hw
    · exact ht

theorem touches_foldl_addElements : (es.foldl addElements st).1.Touches a i ↔
      (∃ it ∈ es, a = it.1 ∧ i ∈ it.2) ∨ st.1.Touches a i := by
  induction es generalizing st with
  | nil => simp
  | cons it es ih =>
    rw [List.foldl_cons, ih, touches_addElements, List.exists_mem_cons_iff]
    exact or_left_comm.trans or_assoc.symm

theorem foldl_addElements_unmodified (h : (es.foldl addElements st).2 = false) :
    st.2 = false ∧ ∀ it ∈ es, ∀ i ∈ it.2, st.1.Touches it.1 i := by
  induction es generalizing st with
  | nil => exact ⟨h, by simp⟩
  | cons it es ih =>
    obtain ⟨hst, hes⟩ := ih h
    obtain ⟨hst, hit⟩ := addElements_unmodified hst
    refine ⟨hst, List.forall_mem_cons.mpr ⟨hit, fun it' hit' i hi => ?_⟩⟩
    rcases touches_addElements.mp (hes it' hit' i hi) with ⟨ha, hi⟩ | ht
    · rw [ha]
      exact hit i hi
    · exact ht

theorem touches_iff : x.Touches a i ↔
    a ∈ x.wholeObjects ∨ ∃ it ∈ x.elements.entries, a = it.1 ∧ i ∈ it.2 := by
  refine or_congr_right ?_
  unfold elementsOf
  constructor
  · intro h
    cases hl : x.elements.lookup a with
    | none =>
      rw [hl] at h
      cases h
    | some dis =>
      rw [hl] at h
      exact ⟨⟨a, dis⟩, AList.mem_lookup_iff.mp hl, rfl, h⟩
  · rintro ⟨⟨a', dis⟩, hit, rfl, hi⟩
    rw [Option.mem_def.mp (AList.mem_lookup_iff.mpr hit)]
    exact hi

theorem touches_add : (x.add b).1.Touches a i ↔ x.Touches a i ∨ b.Touches a i := by
  rw [add, touches_foldl_addElements, touches_foldl_addWhole, touches_iff (x := b)]
  show _ ∨ _ ∨ x.Touches a i ↔ _
  exact or_comm.trans ((or_congr_left or_comm).trans or_assoc)

/-- Nothing is reported as changed only if nothing is new. -/
theorem touches_of_unmodified (h : (x.add b).2 = false) (ht : b.Touches a i) : x.Touches a i := by
  obtain ⟨hst, hes⟩ := foldl_addElements_unmodified h
  obtain ⟨-, hws⟩ := foldl_addWhole_unmodified hst
  rcases touches_iff.mp ht with hw | ⟨it, hit, rfl, hi⟩
  · exact hws a hw i
  · rcases touches_foldl_addWhole.mp (hes it hit i hi) with hw | ht
    · exact hws it.1 hw i
    · exact ht

/-- Sets that do not intersect have no byte in common. -/
theorem not_touches_of_not_intersects (h : x.intersects b = false)
    (hx : x.Touches a i) : ¬b.Touches a i := by
  intro hb
  obtain ⟨hwhole, helements⟩ := Bool.or_eq_false_iff.mp h
  rw [List.any_eq_false] at hwhole helements
  rcases touches_iff.mp hx with hw | ⟨it, hit, rfl, hi⟩
  · have hno := hwhole a hw
    simp only [Bool.or_eq_true, decide_eq_true_eq, not_or] at hno
    rcases hb with hb | hb
    · exact hno.1 hb
    · unfold elementsOf at hb
      cases hl : b.elements.lookup a with
      | none =>
        rw [hl] at hb
        cases hb
      | some dis => simp [hl] at hno
  · have hno := helements it hit
    simp only [Bool.or_eq_true, decide_eq_true_eq, not_or, DenseSet.intersects,
      List.any_eq_true, not_exists, not_and] at hno
    rcases hb with hb | hb
    · exact hno.1 hb
    · exact hno.2 i hi hb

end IndependentElementSet

open IndependentElementSet

/-! ## The closure -/

/-- `closure` has the bytes of the constraints in `result`, and the others have
none of its bytes. -/
structure Closure (worklist : List (Expr × IndependentElementSet))
    (eltsClosure closure : IndependentElementSet) (result : List Expr) : Prop where
  grows : ∀ a i, eltsClosure.Touches a i → closure.Touches a i
  listed : ∀ e ∈ result, ∃ elts, (e, elts) ∈ worklist ∧
    ∀ a i, elts.Touches a i → closure.Touches a i
  apart : ∀ p ∈ worklist, p.1 ∈ result ∨ ∀ a i, p.2.Touches a i → ¬closure.Touches a i

/-- What a pass does: constraints join the closure with their bytes, and if the
closure stays as it is the others have none of its bytes. -/
structure Passed (worklist : List (Expr × IndependentElementSet))
    (eltsClosure closure : IndependentElementSet) (done : Bool) (result : List Expr)
    (newWorklist : List (Expr × IndependentElementSet)) : Prop where
  grows : ∀ a i, eltsClosure.Touches a i → closure.Touches a i
  listed : ∀ e ∈ result, ∃ elts, (e, elts) ∈ worklist ∧
    ∀ a i, elts.Touches a i → closure.Touches a i
  kept : ∀ p ∈ newWorklist, p ∈ worklist
  all : ∀ p ∈ worklist, p.1 ∈ result ∨ p ∈ newWorklist
  unchanged : done = true → ∀ a i, closure.Touches a i → eltsClosure.Touches a i
  apart : done = true → ∀ p ∈ newWorklist, ∀ a i, p.2.Touches a i → ¬closure.Touches a i
  shorter : done = false → newWorklist.length < worklist.length
  le : newWorklist.length ≤ worklist.length

theorem closurePass_passed : ∀ (worklist : List (Expr × IndependentElementSet))
    (eltsClosure : IndependentElementSet),
    let r := closurePass worklist eltsClosure
    Passed worklist eltsClosure r.1 r.2.1 r.2.2.1 r.2.2.2
  | [], eltsClosure => by
    constructor <;> simp [closurePass]
  | (e, elts) :: worklist, eltsClosure => by
    simp only [closurePass]
    split
    · next hin =>
      have ih := closurePass_passed worklist (eltsClosure.add elts).1
      exact {
        grows := fun a i ht => ih.grows a i (touches_add.mpr (.inl ht))
        listed := by
          refine List.forall_mem_cons.mpr ⟨⟨elts, List.mem_cons_self, fun a i ht =>
            ih.grows a i (touches_add.mpr (.inr ht))⟩, fun e' he' => ?_⟩
          obtain ⟨elts', hin', h⟩ := ih.listed e' he'
          exact ⟨elts', List.mem_cons_of_mem _ hin', h⟩
        kept := fun p hp => List.mem_cons_of_mem _ (ih.kept p hp)
        all := by
          refine List.forall_mem_cons.mpr ⟨.inl List.mem_cons_self, fun p hp => ?_⟩
          exact (ih.all p hp).imp_left (List.mem_cons_of_mem _)
        unchanged := by
          intro hdone a i ht
          rw [Bool.and_eq_true_iff, Bool.not_eq_true'] at hdone
          rcases touches_add.mp (ih.unchanged hdone.2 a i ht) with ht | ht
          · exact ht
          · exact touches_of_unmodified hdone.1 ht
        apart := fun hdone => ih.apart (Bool.and_eq_true_iff.mp hdone).2
        shorter := fun _ => Nat.lt_succ_of_le ih.le
        le := Nat.le_succ_of_le ih.le }
    · next hout =>
      have ih := closurePass_passed worklist eltsClosure
      exact {
        grows := ih.grows
        listed := by
          intro e' he'
          obtain ⟨elts', hin', h⟩ := ih.listed e' he'
          exact ⟨elts', List.mem_cons_of_mem _ hin', h⟩
        kept := List.forall_mem_cons.mpr
          ⟨List.mem_cons_self, fun p hp => List.mem_cons_of_mem _ (ih.kept p hp)⟩
        all := List.forall_mem_cons.mpr ⟨.inr List.mem_cons_self,
          fun p hp => (ih.all p hp).imp_right (List.mem_cons_of_mem _)⟩
        unchanged := ih.unchanged
        apart := fun hdone => List.forall_mem_cons.mpr ⟨fun a i ht hc =>
          not_touches_of_not_intersects (Bool.not_eq_true _ ▸ hout) ht
            (ih.unchanged hdone a i hc), ih.apart hdone⟩
        shorter := fun hdone => Nat.succ_lt_succ (ih.shorter hdone)
        le := Nat.succ_le_succ ih.le }

/-- The closure is reached within as many passes as there are constraints. -/
theorem closureLoop_closure : ∀ (fuel : Nat)
    (worklist : List (Expr × IndependentElementSet)) (eltsClosure : IndependentElementSet),
    worklist.length < fuel → ∃ closure result,
      closureLoop fuel worklist eltsClosure = some (closure, result) ∧
      Closure worklist eltsClosure closure result
  | 0, _, _, h => absurd h (Nat.not_lt_zero _)
  | fuel + 1, worklist, eltsClosure, h => by
    have hpass := closurePass_passed worklist eltsClosure
    rcases hr : closurePass worklist eltsClosure with ⟨closure, done, result, newWorklist⟩
    rw [hr] at hpass
    cases done with
    | true =>
      refine ⟨closure, result, by simp [closureLoop, hr], hpass.grows, hpass.listed, ?_⟩
      intro p hp
      exact (hpass.all p hp).imp_right (hpass.apart rfl p)
    | false =>
      have hlt : newWorklist.length < fuel :=
        Nat.lt_of_lt_of_le (hpass.shorter rfl) (Nat.le_of_lt_succ h)
      obtain ⟨closure', result', heq, hc⟩ :=
        closureLoop_closure fuel newWorklist closure hlt
      refine ⟨closure', result ++ result', by simp [closureLoop, hr, heq], ?_, ?_, ?_⟩
      · exact fun a i ht => hc.grows a i (hpass.grows a i ht)
      · intro e he
        rcases List.mem_append.mp he with he | he
        · obtain ⟨elts, hin, h⟩ := hpass.listed e he
          exact ⟨elts, hin, fun a i ht => hc.grows a i (h a i ht)⟩
        · obtain ⟨elts, hin, h⟩ := hc.listed e he
          exact ⟨elts, hpass.kept _ hin, h⟩
      · intro p hp
        rcases hpass.all p hp with hin | hin
        · exact .inl (List.mem_append_left _ hin)
        · exact (hc.apart p hin).imp_left (List.mem_append_right _)

/-- A part of the constraints that has to do with the query, and the bytes of
that part. -/
structure Splits (P : Bytes) (q : Query) (required : List Expr) : Prop where
  subset : ∀ e ∈ required, e ∈ q.constraints
  expr : Determines P q.expr
  inside : ∀ e ∈ required, Determines P e
  outside : ∀ e ∈ q.constraints, e ∈ required ∨ Determines (fun a i => ¬P a i) e

theorem getIndependentConstraints_splits (q : Query) : ∃ closure required,
    getIndependentConstraints q = some (closure, required) ∧ Splits closure.Touches q required := by
  obtain ⟨closure, required, heq, hc⟩ := closureLoop_closure (q.constraints.length + 1)
    (q.constraints.map fun e => (e, ofExpr e)) (ofExpr q.expr) (by simp)
  have hof : ∀ e elts, (e, elts) ∈ q.constraints.map (fun e => (e, ofExpr e)) →
      e ∈ q.constraints ∧ elts = ofExpr e := by
    intro e elts hin
    obtain ⟨e', he', heq⟩ := List.mem_map.mp hin
    cases heq
    exact ⟨he', rfl⟩
  refine ⟨closure, required, heq, ?_, ?_, ?_, ?_⟩
  · intro e he
    obtain ⟨elts, hin, -⟩ := hc.listed e he
    exact (hof e elts hin).1
  · exact (determines_ofExpr q.expr).mono hc.grows
  · intro e he
    obtain ⟨elts, hin, h⟩ := hc.listed e he
    obtain ⟨-, rfl⟩ := hof e elts hin
    exact (determines_ofExpr e).mono h
  · intro e he
    refine (hc.apart (e, ofExpr e) (List.mem_map.mpr ⟨e, he, rfl⟩)).imp_right fun h => ?_
    exact (determines_ofExpr e).mono h

/-! ## Splicing models -/

section

variable {A : Valuation → Prop} {P : Bytes} {q : Query} {required : List Expr}

section

variable (h : Splits P q required)

include h

/-- A model of the part and a model of all constraints give a model of all
constraints that looks like the first one to the query. -/
theorem Splits.model (hσ : AllHold σ required) (hτ : AllHold τ q.constraints) :
    AllHold (.splice P σ τ) q.constraints := by
  intro e he
  rcases h.outside e he with hin | hout
  · exact (denotes_congr (h.inside e hin).eval_splice).mpr (hσ e hin)
  · exact (denotes_congr hout.eval_splice_rest).mpr (hτ e he)

theorem Splits.value : q.expr.eval (.splice P σ τ) = q.expr.eval σ := h.expr.eval_splice

theorem Splits.satisfiable (hsat : Satisfiable A q.constraints) : Satisfiable A required := by
  obtain ⟨τ, hA, hτ⟩ := hsat
  exact ⟨τ, hA, fun e he => hτ e (h.subset e he)⟩

theorem Splits.proper (hA : Spliceable A) (hq : q.Proper A)
    (hsat : Satisfiable A q.constraints) : Query.Proper A ⟨required, q.expr⟩ := by
  obtain ⟨τ, hAτ, hτ⟩ := hsat
  refine ⟨fun e he => hq.boolean e (h.subset e he), ?_, hq.typed, ?_⟩
  · intro σ hAσ
    rcases hq.decided _ (hA P σ τ hAσ hAτ) with hall | ⟨e, he, hfail⟩
    · refine .inl fun e he => ?_
      exact (denotes_congr (h.inside e he).eval_splice).mp (hall e (h.subset e he))
    · refine .inr ?_
      rcases h.outside e he with hin | hout
      · exact ⟨e, hin, (denotes_congr (h.inside e hin).eval_splice).mp hfail⟩
      · -- the rest comes from a model, where nothing fails
        have hfail := (denotes_congr hout.eval_splice_rest).mp hfail
        exact absurd hfail (hτ e he).not_fails
  · intro σ hAσ hσ
    rw [← h.value (τ := τ)]
    exact hq.defined _ (hA P σ τ hAσ hAτ) (h.model hσ hτ)

/-- What follows from the part follows from all, and the other way round. -/
theorem Splits.forall_iff (hA : Spliceable A) (hsat : Satisfiable A q.constraints)
    {w : Nat} {x : BitVec w} : (∀ σ, A σ → AllHold σ required → Denotes σ q.expr x) ↔
      ∀ σ, A σ → AllHold σ q.constraints → Denotes σ q.expr x := by
  constructor
  · intro hreq σ hAσ hσ
    exact hreq σ hAσ fun e he => hσ e (h.subset e he)
  · intro hall σ hAσ hσ
    obtain ⟨τ, hAτ, hτ⟩ := hsat
    have hmodel := hall _ (hA P σ τ hAσ hAτ) (h.model hσ hτ)
    exact (denotes_congr h.value).mp hmodel

end

end

/-! ## The answers -/

namespace IndependentSolver

variable {S : Type} {A : Valuation → Prop} {mayFail : Prop} {Inv : S → Prop}

theorem restrict_splits (q : Query) : ∃ P required,
    restrict q = .ok ⟨required, q.expr⟩ ∧ Splits P q required := by
  obtain ⟨closure, required, heq, hsplits⟩ := getIndependentConstraints_splits q
  exact ⟨closure.Touches, required, by simp [restrict, heq]; rfl, hsplits⟩

/-- Over a correct solver, the truth, the validity and the value that are
answered are right for all constraints. -/
theorem answers_for_all_constraints (is : IndependentSolver S) (hA : Spliceable A)
    (hin : is.solver.Correct A mayFail Inv) (q : Query) (hq : q.Proper A)
    (hsat : Satisfiable A q.constraints) (s : S) (hs : Inv s) :
    (q.expr.getWidth = 1 → Runs (is.computeTruth q) s fun r s' =>
      Inv s' ∧ Answer mayFail (fun b => b = true ↔ q.Entailed A) r) ∧
    (q.expr.getWidth = 1 → Runs (is.computeValidity q) s fun r s' =>
      Inv s' ∧ Answer mayFail (Validity.Of A q) r) ∧
    Runs (is.computeValue q) s fun r s' => Inv s' ∧ Answer mayFail (fun e =>
      ∃ v σ, e = .constant v ∧ A σ ∧ AllHold σ q.constraints ∧
        q.expr.eval σ = some v) r := by
  obtain ⟨P, required, heq, hsplits⟩ := restrict_splits q
  have hproper := hsplits.proper hA hq hsat
  have hsat' := hsplits.satisfiable hsat
  have hentailed : Query.Entailed A ⟨required, q.expr⟩ ↔ q.Entailed A :=
    hsplits.forall_iff hA hsat
  have hrefuted : Query.Refuted A ⟨required, q.expr⟩ ↔ q.Refuted A :=
    hsplits.forall_iff hA hsat
  refine ⟨fun hw => ?_, fun hw => ?_, ?_⟩
  · exact .except_bind heq (answer_imp (hin.truth hproper hw hsat' hs) fun b h =>
      h.trans hentailed)
  · refine .except_bind heq (answer_imp (hin.validity hproper hw hsat' hs) fun v hv => ?_)
    cases v <;> simpa only [Validity.Of, hentailed, hrefuted] using hv
  · refine .except_bind heq (answer_imp (hin.value hproper hsat' hs) ?_)
    rintro _ ⟨v, σ, rfl, hAσ, hσ, hv⟩
    obtain ⟨τ, hAτ, hτ⟩ := hsat
    exact ⟨v, _, rfl, hA P σ τ hAσ hAτ, hsplits.model hσ hτ, hsplits.value.trans hv⟩

/-- Whether `arr[2] = 3` under `arr[1] < arr[0]`, which has nothing to do with
it and is not passed on. -/
theorem answers_for_all_constraints_four :
    let A : Valuation → Prop := fun _ => True
    let q : Query :=
      ⟨[.descending], .cmp .eq (.const 3 8) (.read Array.four .null (.const 2 32))⟩
    let is : IndependentSolver Unit := ⟨SolverImpl.ideal A, true⟩
    (getIndependentConstraints q).map (·.2) = some [] ∧ Spliceable A ∧ q.Proper A ∧
      Satisfiable A q.constraints ∧
      Runs (is.computeTruth q) () fun r _ =>
        True ∧ Answer False (fun b => b = true ↔ q.Entailed A) r := by
  intro A q is
  have hcs := pathCondition_descending
  have hv : Valued A [.descending] q.expr 1 := fun σ _ _ =>
    ⟨_, denotes_cmp.mpr ⟨8, _, _, denotes_const.mpr ⟨by decide, rfl⟩,
      denotes_read_four σ (by decide), rfl⟩⟩
  have hA : Spliceable A := fun _ _ _ _ _ => trivial
  refine ⟨by decide +kernel, hA, hv.proper hcs, hcs.satisfiable, ?_⟩
  exact (answers_for_all_constraints is hA (SolverImpl.ideal_correct A) q (hv.proper hcs)
    hcs.satisfiable () trivial).1 rfl

end IndependentSolver

end VitalSE
