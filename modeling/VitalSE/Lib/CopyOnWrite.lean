import VitalSE.Lib.RefCount

/-!
# Copy on write

Reference-counted cells that hold no references themselves, shared by owners who
write only to what they do not share. What a cell holds stands for a value: `P a c`
says that content `c` stands for `a`, and several contents may stand for the same
value, so that an owner may also tidy up a cell that it shares.

An operation on behalf of one owner is verified by `Undisturbed`: what the cells
of the others stand for has not changed.
-/

namespace RefCount

open Function (update update_self update_of_ne)

variable {C A : Type} {h h' : Heap C} {owned rest : Multiset Ref}

/-- Put a new content into a cell. -/
def write (r : Ref) (c : C) : HeapM C Unit := do
  let old ← cell r
  modify (·.set r { old with content := c })

/-- Every count is the number of owners. -/
def Shared (h : Heap C) (owned : Multiset Ref) : Prop := Counted (fun _ => []) h owned

namespace Shared

variable {r : Ref} {c : C}

theorem empty : Shared (⟨fun _ => none, 0⟩ : Heap C) 0 :=
  ⟨fun _ _ => rfl, fun _ => rfl, fun _ _ h => nomatch h⟩

theorem references_eq (hs : Shared h owned) (r : Ref) : h.references r = owned.count r := by
  have hpointers : h.pointers (fun _ => []) r = 0 := by
    apply Finset.sum_eq_zero
    intro i _
    unfold Heap.kidsAt
    cases h.content i with
    | none => rfl
    | some c => rfl
  rw [Counted.count hs r, hpointers, Nat.zero_add]

theorem exists_content (hs : Shared h owned) (hr : r ∈ owned) : ∃ c, h.content r = some c :=
  Heap.live_iff.mp (Counted.live_of_mem hs hr)

theorem references_cons (hs : Shared h (r ::ₘ rest)) : h.references r = rest.count r + 1 := by
  rw [hs.references_eq, Multiset.count_cons_self]

/-- A cell that is referred to once has one owner. -/
theorem notMem_iff (hs : Shared h (r ::ₘ rest)) : r ∉ rest ↔ h.references r = 1 := by
  rw [hs.references_cons, ← Multiset.count_eq_zero]
  omega

theorem write (hs : Shared h owned) {old : Cell C} (hr : h.cells r = some old) (c : C) :
    Shared (h.set r { old with content := c }) owned := by
  have hlt : r < h.next := Counted.lt_next hs ⟨old, hr⟩
  refine Counted.update _ hs rfl le_rfl hlt (by simpa using Counted.positive hs r old hr)
    fun k => ?_
  have hpointers : (h.set r { old with content := c }).pointers (fun _ => []) k =
      h.pointers (fun _ => []) k := by
    apply Finset.sum_congr rfl
    intro i _
    unfold Heap.kidsAt
    cases (h.set r { old with content := c }).content i <;> cases h.content i <;> rfl
  rw [hpointers, ← Counted.count hs k, Heap.references_set]
  show update h.references r old.references k = h.references k
  rw [← Heap.references_of_cells hr, Function.update_eq_self]

end Shared

/-! ## What the others see -/

section Undisturbed

variable (P : A → C → Prop)

/-- The cells stand for the same values as before. -/
def Undisturbed (h h' : Heap C) (owned : Multiset Ref) : Prop :=
  ∀ r ∈ owned, ∀ a c, h.content r = some c → P a c → ∃ c', h'.content r = some c' ∧ P a c'

/-- Through the reference one sees the value; the rest is owned by others. -/
def Owns (h : Heap C) (a : A) (r : Ref) (rest : Multiset Ref) : Prop :=
  Shared h (r ::ₘ rest) ∧ ∃ c, h.content r = some c ∧ P a c

variable {P} {h'' : Heap C} {r : Ref} {a : A} {c : C} {s : Cell C}

namespace Undisturbed

theorem refl (h : Heap C) (owned : Multiset Ref) : Undisturbed P h h owned :=
  fun _ _ _ c hc hP => ⟨c, hc, hP⟩

theorem trans (h1 : Undisturbed P h h' owned) (h2 : Undisturbed P h' h'' owned) :
    Undisturbed P h h'' owned := by
  intro r hr a c hc hP
  obtain ⟨c', hc', hP'⟩ := h1 r hr a c hc hP
  exact h2 r hr a c' hc' hP'

theorem of_content_eq (heq : ∀ r ∈ owned, h'.content r = h.content r) :
    Undisturbed P h h' owned := by
  intro r hr a c hc hP
  exact ⟨c, (heq r hr).trans hc, hP⟩

end Undisturbed

theorem Owns.cell (ho : Owns P h a r rest) :
    ∃ s : Cell C, h.cells r = some s ∧ P a s.content ∧ s.references = rest.count r + 1 := by
  obtain ⟨hs, c, hc, hP⟩ := ho
  obtain ⟨s, hcell, rfl⟩ := Option.map_eq_some_iff.mp hc
  refine ⟨s, hcell, hP, ?_⟩
  rw [← Heap.references_of_cells hcell]
  exact hs.references_cons

theorem Heap.content_of_cells (hr : h.cells r = some s) : h.content r = some s.content := by
  unfold content
  rw [hr]
  rfl

/-! ## The operations -/

theorem write_eq (hr : h.cells r = some s) :
    RefCount.write r c h = .ok ((), h.set r { s with content := c }) := by
  obtain ⟨_, _, hcell, rfl, rfl⟩ := cell_runs hr
  show (RefCount.cell r h >>= _) = _
  rw [hcell]
  rfl

/-- Tidying up: the new content stands for whatever the old one stood for. -/
theorem write_tidy (ho : Owns P h a r rest) (hr : h.cells r = some s)
    (htidy : ∀ b, P b s.content → P b c) :
    Runs (RefCount.write r c) h fun _ h' => Owns P h' a r rest ∧
      h'.cells r = some { s with content := c } ∧ Undisturbed P h h' rest := by
  obtain ⟨hs, c0, hc0, hP⟩ := ho
  obtain rfl : s.content = c0 :=
    Option.some.inj ((Heap.content_of_cells hr).symm.trans hc0)
  refine ⟨(), _, write_eq hr, ⟨hs.write hr c, c, ?_, htidy a hP⟩, ?_, ?_⟩
  · rw [Heap.content_set, update_self]
  · show update h.cells r _ r = _
    rw [update_self]
  · intro k _ b ck hck hPk
    rw [Heap.content_set]
    by_cases hkr : k = r
    · subst hkr
      rw [hc0] at hck
      cases hck
      exact ⟨c, update_self .., htidy b hPk⟩
    · exact ⟨ck, (update_of_ne hkr ..).trans hck, hPk⟩

/-- The only owner writes a new value. -/
theorem write_alone {b : A} (hs : Shared h (r ::ₘ rest)) (halone : r ∉ rest)
    (hr : h.cells r = some s) (hP : P b c) :
    Runs (RefCount.write r c) h fun _ h' => Owns P h' b r rest ∧
      h'.cells r = some { s with content := c } ∧ Undisturbed P h h' rest := by
  refine ⟨(), _, write_eq hr, ⟨hs.write hr c, c, ?_, hP⟩, ?_, ?_⟩
  · rw [Heap.content_set, update_self]
  · show update h.cells r _ r = _
    rw [update_self]
  · apply Undisturbed.of_content_eq
    intro k hk
    rw [Heap.content_set, update_of_ne]
    rintro rfl
    exact halone hk

/-- A new cell has one owner. -/
theorem alloc_alone {b : A} (hs : Shared h rest) (hP : P b c) :
    Runs (alloc c) h fun r h' => Owns P h' b r rest ∧ r ∉ rest ∧
      h'.cells r = some ⟨c, 1⟩ ∧ Undisturbed P h h' rest := by
  have hempty : Counted (fun _ => []) h ((([] : List Ref) : Multiset Ref) + rest) := by
    rw [Multiset.coe_nil, zero_add]
    exact hs
  obtain ⟨r, h', hrun, rfl, hcount, hcontent, hgrows, -⟩ :=
    alloc_runs (c := c) (fun _ => []) hempty
  have hcell : h'.cells h.next = some ⟨c, 1⟩ := by
    obtain rfl : _ = h' := congrArg Prod.snd (Except.ok.inj hrun)
    exact update_self ..
  refine ⟨h.next, h', hrun, ⟨hcount, c, hcontent, hP⟩, ?_, hcell, ?_⟩
  · intro hmem
    exact absurd (Counted.lt_next hs (Counted.live_of_mem hs hmem)) (Nat.lt_irrefl _)
  · intro k _ b ck hck hPk
    exact ⟨ck, hgrows k ck hck, hPk⟩

theorem decref_shared (hs : Shared h (r ::ₘ rest)) : Runs (decref (fun _ => []) r) h fun _ h' =>
      Shared h' rest ∧ ∀ k ∈ rest, h'.content k = h.content k := by
  refine (decref_runs (fun _ => []) hs).imp fun _ h' ⟨hs', hlater⟩ => ⟨hs', fun k hk => ?_⟩
  obtain ⟨c, hc⟩ := hs.exists_content (Multiset.mem_cons_of_mem hk)
  rw [hc]
  exact Held.content_eq hlater hs hc (Counted.live_of_mem hs' hk)

theorem incref_shared (hs : Shared h owned) (hr : r ∈ owned) :
    Runs (incref r) h fun r' h' => r = r' ∧ Shared h' (r ::ₘ owned) ∧ h'.content = h.content := by
  refine (incref_runs (fun _ => []) hs (Counted.live_of_mem hs hr)).imp ?_
  intro r' h' ⟨heq, hs', hcontent, _⟩
  exact ⟨heq, hs', hcontent⟩

end Undisturbed

end RefCount
