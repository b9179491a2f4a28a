import Mathlib.Algebra.BigOperators.Group.Finset.Piecewise
import Mathlib.Algebra.Order.BigOperators.Group.Finset
import VitalSE.Lib.Runs

/-!
# Reference-counted cells

Cells whose contents never change and that are freed when the last reference to
them is given up. Whoever works with them owns some references; a cell owns one
reference to each cell it points to.

`Counted` says that every count is right for what is owned. It is kept by every
operation that accounts for its references, and it is all that is needed for
the two facts a client relies on: no live pointer dangles, and what can be
reached from an owned reference reads the same before and after. So a proof
about a client follows its ownership and never the counts.
-/

namespace RefCount

open Function (update update_self update_of_ne)

/-- A reference to a cell. -/
abbrev Ref := Nat

/-- A content, and how many references there are to it. -/
structure Cell (C : Type) where
  content : C
  references : Nat

/-- Cells by reference number; a number is not used again after its cell is
freed, so that a dangling pointer shows up as one. -/
structure Heap (C : Type) where
  cells : Ref → Option (Cell C)
  next : Ref

/-- Why a program stops: a cell that is gone, or too little fuel. -/
inductive Fault
  | dangling
  | outOfFuel
deriving DecidableEq

/-- A program on the heap. -/
abbrev HeapM (C : Type) := StateT (Heap C) (Except Fault)

variable {C : Type} {owned owned' : Multiset Ref} {r : Ref}

namespace Heap

/-- The cell is written. -/
def set (h : Heap C) (r : Ref) (c : Cell C) : Heap C :=
  { h with cells := update h.cells r (some c) }

/-- The cell is freed. -/
def erase (h : Heap C) (r : Ref) : Heap C :=
  { h with cells := update h.cells r none }

/-- What is in the cell, if there is one. -/
def content (h : Heap C) (r : Ref) : Option C :=
  (h.cells r).map Cell.content

/-- The count of a cell; nothing refers to a cell that is gone. -/
def references (h : Heap C) (r : Ref) : Nat :=
  ((h.cells r).map Cell.references).getD 0

end Heap

/-! ## The operations -/

/-- The cell of a reference that must be there. -/
def cell (r : Ref) : HeapM C (Cell C) := do
  match (← get).cells r with
  | some c => return c
  | none => throw .dangling

/-- Its content. -/
def read (r : Ref) : HeapM C C := do
  return (← cell r).content

/-- A new cell, with one reference, which the caller owns. -/
def alloc (c : C) : HeapM C Ref := do
  let h ← get
  set { (h.set h.next ⟨c, 1⟩) with next := h.next + 1 }
  return h.next

/-- One more reference. -/
def incref (r : Ref) : HeapM C Ref := do
  let c ← cell r
  modify (·.set r { c with references := c.references + 1 })
  return r

/-- Give up a reference. A cell whose count comes to zero is freed, and gives up
its own references in turn. -/
def decrefFrom (kids : C → List Ref) : Nat → Ref → HeapM C Unit
  | 0, _ => throw .outOfFuel
  | fuel + 1, r => do
    let c ← cell r
    if c.references - 1 = 0 then
      modify (·.erase r)
      (kids c.content).forM (decrefFrom kids fuel)
    else modify (·.set r { c with references := c.references - 1 })

/-- Each call that goes deeper has freed a cell before. -/
def decref (kids : C → List Ref) (r : Ref) : HeapM C Unit := do
  decrefFrom kids ((← get).next + 1) r

/-! ## The counts -/

section Counted

variable (kids : C → List Ref) {h : Heap C} {c : Cell C}

/-- The references in a cell. -/
def Heap.kidsAt (h : Heap C) (r : Ref) : List Ref :=
  ((h.content r).map kids).getD []

/-- The references to a cell that other cells own. -/
def Heap.pointers (h : Heap C) (r : Ref) : Nat :=
  ∑ i ∈ Finset.range h.next, (h.kidsAt kids i).count r

/-- Every count is the number of references from `owned` and from other cells. -/
structure Counted (h : Heap C) (owned : Multiset Ref) : Prop where
  fresh : ∀ r, h.next ≤ r → h.cells r = none
  count : ∀ r, h.references r = h.pointers kids r + owned.count r
  positive : ∀ r c, h.cells r = some c → 0 < c.references

/-- The cell is there. -/
def Heap.Live (h : Heap C) (r : Ref) : Prop := ∃ c, h.cells r = some c

theorem Heap.live_iff : h.Live r ↔ ∃ c, h.content r = some c := by
  unfold Live content
  cases h.cells r with
  | none => simp
  | some c => simp

theorem Heap.kidsAt_of_content {c : C} (hr : h.content r = some c) : h.kidsAt kids r = kids c := by
  unfold kidsAt
  rw [hr]
  rfl

namespace Counted

variable {kids} {h h' : Heap C} {k : Ref}

theorem live_of_references (hr : 0 < h.references r) : h.Live r := by
  unfold Heap.references at hr
  unfold Heap.Live
  cases hc : h.cells r with
  | none =>
    rw [hc] at hr
    exact absurd hr (by simp)
  | some c => exact ⟨c, rfl⟩

section

variable (hc : Counted kids h owned)

include hc

theorem lt_next (hr : h.Live r) : r < h.next := by
  obtain ⟨c, hr⟩ := hr
  by_contra hlt
  rw [hc.fresh r (not_lt.mp hlt)] at hr
  cases hr

/-- An owned reference does not dangle. -/
theorem live_of_mem (hr : r ∈ owned) : h.Live r := by
  apply live_of_references
  have hpos := Multiset.count_pos.mpr hr
  rw [hc.count r]
  omega

theorem count_le_pointers (hr : h.Live r) : (h.kidsAt kids r).count k ≤ h.pointers kids k := by
  apply Finset.single_le_sum (f := fun i => (h.kidsAt kids i).count k)
  · intro i _
    exact Nat.zero_le _
  · exact Finset.mem_range.mpr (hc.lt_next hr)

/-- Nor does a pointer of a live cell. -/
theorem live_of_kid {c : C} (hr : h.content r = some c) (hk : k ∈ kids c) : h.Live k := by
  apply live_of_references
  have hle := hc.count_le_pointers (k := k) (Heap.live_iff.mpr ⟨c, hr⟩)
  rw [Heap.kidsAt_of_content kids hr] at hle
  have hpos := List.count_pos_iff.mpr hk
  rw [hc.count k]
  omega

end

end Counted

/-! ## Reading after an operation

No operation writes to the content of a cell; it can only be gone. -/

/-- What was there and still is, has the same content. -/
structure Later (h h' : Heap C) : Prop where
  next : h.next ≤ h'.next
  content : ∀ r, r < h.next → h'.content r = none ∨ h'.content r = h.content r

theorem Later.refl (h : Heap C) : Later h h :=
  ⟨le_refl _, fun _ _ => .inr rfl⟩

theorem Later.trans {h' h'' : Heap C} (h1 : Later h h') (h2 : Later h' h'') : Later h h'' := by
  refine ⟨le_trans h1.next h2.next, fun r hr => ?_⟩
  rcases h2.content r (lt_of_lt_of_le hr h1.next) with hn | heq
  · exact .inl hn
  · rw [heq]
    exact h1.content r hr

/-- Nothing is gone. -/
def Grows (h h' : Heap C) : Prop :=
  ∀ r c, h.content r = some c → h'.content r = some c

theorem Grows.trans {h' h'' : Heap C} (h1 : Grows h h') (h2 : Grows h' h'') :
    Grows h h'' := fun r c hr => h2 r c (h1 r c hr)

/-- A cell that can be reached from the owned references. -/
inductive Held (h : Heap C) (owned : Multiset Ref) : Ref → Prop
  | owned {r : Ref} : r ∈ owned → Held h owned r
  | kid {r k : Ref} {c : C} :
      Held h owned r → h.content r = some c → k ∈ kids c → Held h owned k

namespace Held

variable {kids} {h h' : Heap C}

theorem mono (hr : Held kids h owned r) (hle : owned ≤ owned') : Held kids h owned' r := by
  induction hr with
  | owned hr => exact .owned (Multiset.mem_of_le hle hr)
  | kid _ hcontent hk ih => exact .kid ih hcontent hk

theorem live (hc : Counted kids h owned) (hr : Held kids h owned r) : h.Live r := by
  cases hr with
  | owned hr => exact hc.live_of_mem hr
  | kid _ hcontent hk => exact hc.live_of_kid hcontent hk

theorem content_eq {c : C} (hl : Later h h') (hc : Counted kids h owned)
    (hr : h.content r = some c) (hlive : h'.Live r) : h'.content r = some c := by
  obtain ⟨c', hc'⟩ := Heap.live_iff.mp hlive
  rcases hl.content r (hc.lt_next (Heap.live_iff.mpr ⟨c, hr⟩)) with hn | heq
  · rw [hn] at hc'
    cases hc'
  · rw [heq]
    exact hr

/-- What is reached from the references kept stays reached. -/
theorem later {all all' : Multiset Ref} (hr : Held kids h owned r) (hl : Later h h')
    (hc : Counted kids h all) (hc' : Counted kids h' all') (hle : owned ≤ all') :
    Held kids h' owned r := by
  induction hr with
  | owned hr => exact .owned hr
  | kid _ hcontent hk ih =>
    exact .kid ih (content_eq hl hc hcontent ((ih.mono hle).live hc')) hk

end Held

/-! ## What the operations do to the counts -/

@[simp]
theorem Heap.references_set : (h.set r c).references = update h.references r c.references :=
  Function.comp_update (fun c : Option (Cell C) => (c.map Cell.references).getD 0)
    h.cells r (some c)

@[simp]
theorem Heap.content_set : (h.set r c).content = update h.content r (some c.content) :=
  Function.comp_update (Option.map Cell.content) h.cells r (some c)

@[simp]
theorem Heap.references_erase : (h.erase r).references = update h.references r 0 :=
  Function.comp_update (fun c : Option (Cell C) => (c.map Cell.references).getD 0)
    h.cells r none

@[simp]
theorem Heap.content_erase : (h.erase r).content = update h.content r none :=
  Function.comp_update (Option.map Cell.content) h.cells r none

theorem Heap.references_of_cells (hr : h.cells r = some c) : h.references r = c.references := by
  unfold references
  rw [hr]
  rfl

/-- A new count is no new content. -/
theorem Heap.content_recount (n : Nat) (hr : h.cells r = some c) :
    (h.set r { c with references := n }).content = h.content := by
  rw [content_set]
  apply Function.update_eq_self_iff.mpr
  unfold content
  rw [hr]
  rfl

theorem Heap.pointers_recount (n : Nat) (hr : h.cells r = some c) :
    (h.set r { c with references := n }).pointers kids = h.pointers kids := by
  funext k
  unfold pointers kidsAt
  rw [content_recount n hr]
  rfl

/-- The references a cell owned are free when the cell is gone. -/
theorem Heap.pointers_erase (hr : r < h.next) (k : Ref) :
    (h.kidsAt kids r).count k + (h.erase r).pointers kids k = h.pointers kids k := by
  have hmem : r ∈ Finset.range h.next := Finset.mem_range.mpr hr
  have hrest : ∀ i ∈ (Finset.range h.next).erase r,
      ((h.erase r).kidsAt kids i).count k = (h.kidsAt kids i).count k := by
    intro i hi
    unfold kidsAt
    rw [content_erase, update_of_ne (Finset.ne_of_mem_erase hi)]
  have hgone : ((h.erase r).kidsAt kids r).count k = 0 := by
    unfold kidsAt
    rw [content_erase, update_self]
    rfl
  unfold pointers
  show _ + ∑ i ∈ Finset.range h.next, _ = _
  rw [← Finset.add_sum_erase _ _ hmem, hgone, Finset.sum_congr rfl hrest, Nat.zero_add,
    Finset.add_sum_erase _ (fun i => (h.kidsAt kids i).count k) hmem]

theorem cell_runs (hr : h.cells r = some c) : Runs (cell r) h fun c' h' => c = c' ∧ h = h' := by
  unfold cell
  apply Runs.get_bind
  rw [hr]
  exact .pure ⟨rfl, rfl⟩

theorem read_runs {c : C} (hr : h.content r = some c) :
    Runs (read r) h fun c' h' => c = c' ∧ h = h' := by
  obtain ⟨cell, hcell, rfl⟩ := Option.map_eq_some_iff.mp hr
  refine .bind_eq (cell_runs hcell) ?_
  exact .pure ⟨rfl, rfl⟩

theorem read_bind {α : Type} {c : C} {f : C → HeapM C α} {Q : α → Heap C → Prop}
    (hr : h.content r = some c) (hf : Runs (f c) h Q) : Runs (read r >>= f) h Q :=
  .bind_eq (read_runs hr) hf

/-- One cell changes, or is gone. -/
theorem Counted.update {h' : Heap C} {o : Option (Cell C)}
    (hc : Counted kids h owned) (hcells : h'.cells = update h.cells r o)
    (hnext : h.next ≤ h'.next) (hr : r < h'.next) (ho : ∀ c ∈ o, 0 < c.references)
    (hcount : ∀ k, h'.references k = h'.pointers kids k + owned'.count k) :
    Counted kids h' owned' where
  fresh k hk := by
    rw [hcells, update_of_ne (ne_of_gt (lt_of_lt_of_le hr hk))]
    exact hc.fresh k (le_trans hnext hk)
  count := hcount
  positive k c hk := by
    rw [hcells] at hk
    by_cases hkr : k = r
    · subst hkr
      rw [update_self] at hk
      exact ho c hk
    · rw [update_of_ne hkr] at hk
      exact hc.positive k c hk

/-- A count changes with the references that are owned. -/
theorem Counted.recount {n : Nat} (hc : Counted kids h owned)
    (hr : h.cells r = some c) (hn : 0 < n)
    (hself : n + owned.count r = c.references + owned'.count r)
    (hothers : ∀ k, k ≠ r → owned'.count k = owned.count k) :
    Counted kids (h.set r { c with references := n }) owned' := by
  refine hc.update kids rfl (le_refl _) (hc.lt_next ⟨c, hr⟩) (by simpa using hn) fun k => ?_
  have hcount := hc.count k
  rw [Heap.references_set, Heap.pointers_recount kids _ hr]
  by_cases hk : k = r
  · subst hk
    rw [Heap.references_of_cells hr] at hcount
    rw [update_self]
    show n = _
    omega
  · rw [update_of_ne hk, hothers k hk]
    exact hcount

/-- The caller owns one reference more. -/
theorem incref_runs (hc : Counted kids h owned) (hr : h.Live r) : Runs (incref r) h fun r' h' =>
      r = r' ∧ Counted kids h' (r ::ₘ owned) ∧ h'.content = h.content ∧ h'.next = h.next := by
  obtain ⟨c, hcell⟩ := hr
  refine .bind_eq (cell_runs hcell) ?_
  refine .modify_bind (.pure ⟨rfl, ?_, Heap.content_recount _ hcell, rfl⟩)
  refine hc.recount kids hcell (Nat.succ_pos _) ?_ fun k hk => Multiset.count_cons_of_ne hk _
  rw [Multiset.count_cons_self]
  omega

/-- The new cell takes over the references it points with. -/
theorem alloc_runs {c : C} (hc : Counted kids h ((kids c : Multiset Ref) + owned)) :
    Runs (alloc c) h fun r h' =>
      r = h.next ∧ Counted kids h' (r ::ₘ owned) ∧ h'.content r = some c ∧ Grows h h' ∧
        Later h h' := by
  have hnone : h.cells h.next = none := hc.fresh _ (le_refl _)
  have hcontent : (h.set h.next ⟨c, 1⟩).content
      = update h.content h.next (some c) := Heap.content_set
  have hkids : ∀ i ∈ Finset.range h.next,
      (h.set h.next ⟨c, 1⟩).kidsAt kids i = h.kidsAt kids i := by
    intro i hi
    unfold Heap.kidsAt
    rw [hcontent, update_of_ne (ne_of_lt (Finset.mem_range.mp hi))]
  have hnew : (h.set h.next ⟨c, 1⟩).kidsAt kids h.next = kids c := by
    apply Heap.kidsAt_of_content
    rw [hcontent, update_self]
  have hpointers : ∀ k, ({ h.set h.next ⟨c, 1⟩ with next := h.next + 1 } :
      Heap C).pointers kids k = h.pointers kids k + (kids c).count k := by
    intro k
    unfold Heap.pointers
    show ∑ i ∈ Finset.range (h.next + 1),
      ((h.set h.next ⟨c, 1⟩).kidsAt kids i).count k = _
    rw [Finset.sum_range_succ, hnew]
    congr 1
    apply Finset.sum_congr rfl
    intro i hi
    rw [hkids i hi]
  refine ⟨h.next, _, rfl, rfl, hc.update kids rfl (Nat.le_succ _) (Nat.lt_succ_self _)
    (by simp) fun k => ?_, ?_, ?_, ?_⟩
  · have hcount := hc.count k
    rw [Multiset.count_add, Multiset.coe_count] at hcount
    rw [hpointers k]
    show (h.set h.next ⟨c, 1⟩).references k = _
    rw [Heap.references_set]
    by_cases hk : k = h.next
    · subst hk
      have hzero : h.references h.next = 0 := by
        unfold Heap.references
        rw [hnone]
        rfl
      rw [update_self, Multiset.count_cons_self]
      show 1 = _
      omega
    · rw [update_of_ne hk, Multiset.count_cons_of_ne hk, hcount]
      omega
  · show (h.set h.next ⟨c, 1⟩).content h.next = some c
    rw [hcontent, update_self]
  · intro k c' hk
    have hne : k ≠ h.next := ne_of_lt (hc.lt_next (Heap.live_iff.mpr ⟨c', hk⟩))
    show (h.set h.next ⟨c, 1⟩).content k = some c'
    rw [hcontent, update_of_ne hne]
    exact hk
  · refine ⟨Nat.le_succ _, fun k hk => .inr ?_⟩
    show (h.set h.next ⟨c, 1⟩).content k = h.content k
    rw [hcontent, update_of_ne (ne_of_lt hk)]

/-! Giving up a reference can free cells in a chain. Every call that goes deeper
has freed one before, so the number of live cells bounds the depth. -/

/-- How many cells there are. -/
def Heap.population (h : Heap C) : Nat :=
  ((Finset.range h.next).filter fun i => (h.cells i).isSome).card

theorem Heap.population_le (h : Heap C) : h.population ≤ h.next := by
  calc h.population ≤ (Finset.range h.next).card := Finset.card_filter_le _ _
    _ = h.next := Finset.card_range _

theorem Heap.population_set {c' : Cell C} (hr : h.cells r = some c) :
    (h.set r c').population = h.population := by
  have hsome : ∀ i, ((h.set r c').cells i).isSome = (h.cells i).isSome := by
    intro i
    by_cases hi : i = r
    · subst hi
      simp [set, hr]
    · simp [set, hi]
  unfold population
  simp only [hsome]
  rfl

theorem Heap.population_erase (hlt : r < h.next) (hr : h.cells r = some c) :
    (h.erase r).population < h.population := by
  apply Finset.card_lt_card
  refine ⟨fun i hi => ?_, fun hsub => ?_⟩
  · rw [Finset.mem_filter] at hi ⊢
    refine ⟨hi.1, ?_⟩
    by_cases hir : i = r
    · rw [hir, hr]
      rfl
    · simpa [erase, hir] using hi.2
  · have hmem := hsub (Finset.mem_filter.mpr ⟨Finset.mem_range.mpr hlt, by rw [hr]; rfl⟩)
    have hsome := (Finset.mem_filter.mp hmem).2
    simp [erase] at hsome

theorem Counted.erase (hc : Counted kids h (r ::ₘ owned)) (hr : h.cells r = some c)
    (hlast : c.references - 1 = 0) :
    Counted kids (h.erase r) ((kids c.content : Multiset Ref) + owned) := by
  have hlt := hc.lt_next ⟨c, hr⟩
  have hkids : h.kidsAt kids r = kids c.content := by
    apply Heap.kidsAt_of_content
    unfold Heap.content
    rw [hr]
    rfl
  refine hc.update kids rfl (le_refl _) hlt (by simp) fun k => ?_
  have hcount := hc.count k
  have hpointers := Heap.pointers_erase kids hlt k
  rw [hkids] at hpointers
  rw [Heap.references_erase, Multiset.count_add, Multiset.coe_count]
  by_cases hk : k = r
  · -- the reference given up was the only one
    subst hk
    rw [Heap.references_of_cells hr, Multiset.count_cons_self] at hcount
    rw [update_self]
    omega
  · rw [Multiset.count_cons_of_ne hk] at hcount
    rw [update_of_ne hk, hcount]
    omega

theorem Later.recount (n : Nat) (hr : h.cells r = some c) :
    Later h (h.set r { c with references := n }) := by
  refine ⟨le_refl _, fun k _ => .inr ?_⟩
  rw [Heap.content_recount n hr]

theorem Later.erase (h : Heap C) (r : Ref) : Later h (h.erase r) := by
  refine ⟨le_refl _, fun k _ => ?_⟩
  rw [Heap.content_erase]
  by_cases hk : k = r
  · subst hk
    exact .inl (update_self ..)
  · exact .inr (update_of_ne hk ..)

/-- What giving up references does: they are no longer owned, and what the rest
reaches reads as before. -/
def GivenUp (h : Heap C) (owned : Multiset Ref) (_ : Unit) (h' : Heap C) : Prop :=
  Counted kids h' owned ∧ Later h h' ∧ h'.population ≤ h.population

theorem forM_givenUp {f : Ref → HeapM C Unit} {n : Nat}
    (hf : ∀ r h owned, Counted kids h (r ::ₘ owned) → h.population < n →
      Runs (f r) h (GivenUp kids h owned)) :
    ∀ (l : List Ref) (h : Heap C), Counted kids h ((l : Multiset Ref) + owned) →
      h.population < n → Runs (l.forM f) h (GivenUp kids h owned)
  | [], h, hc, _ => by
    refine .pure ⟨?_, Later.refl h, le_refl _⟩
    simpa using hc
  | r :: l, h, hc, hn => by
    rw [← Multiset.cons_coe, Multiset.cons_add] at hc
    refine .bind (hf r h _ hc hn) fun _ h1 ⟨hc1, hl1, hp1⟩ => ?_
    refine (forM_givenUp hf l h1 hc1 (lt_of_le_of_lt hp1 hn)).imp ?_
    rintro _ h2 ⟨hc2, hl2, hp2⟩
    exact ⟨hc2, hl1.trans hl2, le_trans hp2 hp1⟩

theorem decrefFrom_runs (fuel : Nat) : ∀ (r : Ref) (h : Heap C) (owned : Multiset Ref),
    Counted kids h (r ::ₘ owned) → h.population < fuel →
    Runs (decrefFrom kids fuel r) h (GivenUp kids h owned) := by
  induction fuel with
  | zero =>
    intro r h owned _ hn
    exact absurd hn (Nat.not_lt_zero _)
  | succ fuel ih =>
    intro r h owned hc hn
    obtain ⟨c, hr⟩ := hc.live_of_mem (Multiset.mem_cons_self r owned)
    refine .bind_eq (cell_runs hr) ?_
    split
    · next hlast =>
      have hpop := Heap.population_erase (hc.lt_next ⟨c, hr⟩) hr
      refine .modify_bind ?_
      refine (forM_givenUp kids ih _ _ (hc.erase kids hr hlast) (by omega)).imp ?_
      rintro _ h' ⟨hc', hl', hp'⟩
      exact ⟨hc', (Later.erase h r).trans hl', by omega⟩
    · next hmore =>
      have hpos := hc.positive r c hr
      refine ⟨_, _, rfl, hc.recount kids hr (Nat.pos_of_ne_zero hmore) ?_
        fun k hk => (Multiset.count_cons_of_ne hk _).symm, Later.recount _ hr, ?_⟩
      · rw [Multiset.count_cons_self]
        omega
      · rw [Heap.population_set hr]

theorem decref_runs (hc : Counted kids h (r ::ₘ owned)) :
    Runs (decref kids r) h fun _ h' => Counted kids h' owned ∧ Later h h' := by
  refine .get_bind ((decrefFrom_runs kids _ r h owned hc ?_).imp ?_)
  · exact Nat.lt_succ_of_le h.population_le
  · rintro _ h' ⟨hc', hl', -⟩
    exact ⟨hc', hl'⟩

end Counted

end RefCount
