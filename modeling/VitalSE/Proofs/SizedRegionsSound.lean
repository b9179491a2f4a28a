import VitalSE.KDAlloc.SizedRegions
import VitalSE.Lib.BalancedTree
import VitalSE.Lib.Runs

/-!
# The index of the free regions is a sorted list and, as long as it lasts, a heap

The treap is seen through the list of its regions by address. On a search tree
every operation does what its name says to that list, whatever the sizes are:
the order of the addresses decides where it goes, and the ranks only decide the
shape.

The heap order is another matter. Inserting, shrinking the root and taking a node
out keep it. Merging around an address grows a node in place, and keeps it just
when no node above is smaller than the region that results.
-/

namespace VitalSE.SizedRegions

variable {l r : List Region} {newSize b address : Nat} {u x n region : Region}
  {lhs rhs t t' : SizedRegions}

/-- The regions from left to right. -/
def toList : SizedRegions → List Region
  | .empty => []
  | .node lhs r rhs => lhs.toList ++ r :: rhs.toList

/-- In the order of the addresses. -/
def Sorted (l : List Region) : Prop :=
  l.Pairwise fun a b => a.baseAddress < b.baseAddress

theorem sorted_iff : Sorted (l ++ x :: r) ↔
    (Sorted l ∧ Sorted r) ∧ (∀ a ∈ l, a.baseAddress < x.baseAddress) ∧
      (∀ b ∈ r, x.baseAddress < b.baseAddress) ∧ ∀ a ∈ l, ∀ b ∈ r, a.baseAddress < b.baseAddress :=
  List.pairwise_around

theorem isEmpty_iff : t.isEmpty = true ↔ t.toList = [] := by
  cases t with
  | empty => simp [isEmpty, toList]
  | node lhs r rhs => simp [isEmpty, toList]

/-! ## The heap order -/

/-- No region is larger than one above it. -/
def IsHeap : SizedRegions → Prop
  | .empty => True
  | .node lhs n rhs =>
    (∀ r ∈ lhs.toList ++ rhs.toList, r.size ≤ n.size) ∧ lhs.IsHeap ∧ rhs.IsHeap

theorem size_le_of_outranks {r r' : Region} (h : r.outranks r' = true) : r'.size ≤ r.size := by
  simp only [Region.outranks, Bool.or_eq_true, Bool.and_eq_true, decide_eq_true_eq, beq_iff_eq] at h
  omega

theorem size_le_of_not_outranks {r r' : Region} (h : ¬ r.outranks r' = true) :
    r.size ≤ r'.size := by
  simp only [Region.outranks, Bool.or_eq_true, Bool.and_eq_true, decide_eq_true_eq, beq_iff_eq] at h
  omega

/-- No region is larger than the bound. -/
def Below (t : SizedRegions) (b : Nat) : Prop := ∀ x ∈ t.toList, x.size ≤ b

section Below

variable {l r : SizedRegions} {a : Nat}

theorem Below.mono (h : t.Below a) (hab : a ≤ b) : t.Below b :=
  fun x hx => le_trans (h x hx) hab

theorem below_of_toList (ht : t.toList = l.toList ++ n :: r.toList) :
    t.Below b ↔ l.Below b ∧ n.size ≤ b ∧ r.Below b := by
  simp only [Below, ht, List.mem_append, List.mem_cons, or_imp, forall_and, forall_eq]

theorem below_node : (node l n r).Below b ↔ l.Below b ∧ n.size ≤ b ∧ r.Below b :=
  below_of_toList rfl

theorem below_of_append (ht : t.toList = l.toList ++ r.toList) :
    t.Below b ↔ l.Below b ∧ r.Below b := by
  simp only [Below, ht, List.mem_append, or_imp, forall_and]

theorem isHeap_node : (node l n r).IsHeap ↔
    (l.Below n.size ∧ r.Below n.size) ∧ l.IsHeap ∧ r.IsHeap := by
  simp only [IsHeap, Below, List.mem_append, or_imp, forall_and]

/-- The root of a heap is a largest region. -/
theorem IsHeap.below (hh : (node l n r).IsHeap) (hb : n.size ≤ b) : (node l n r).Below b := by
  obtain ⟨⟨hl, hr⟩, -⟩ := isHeap_node.mp hh
  exact below_node.mpr ⟨hl.mono hb, hb, hr.mono hb⟩

theorem IsHeap.le_root {x : Region} (hh : (node l n r).IsHeap)
    (hx : x ∈ (node l n r).toList) : x.size ≤ n.size := hh.below (le_refl _) x hx

theorem below_empty : empty.Below b := fun x hx => by simp [toList] at hx

end Below

theorem IsHeap.below_of_not_outranks (hh : t.IsHeap) (hout : ¬ t.outranks u = true) :
    t.Below u.size := by
  cases t with
  | empty => exact below_empty
  | node l r rest => exact hh.below (size_le_of_not_outranks hout)

/-! ## Inserting -/

@[simp]
theorem toList_rotateLhs (lhs : SizedRegions) (n : Region) (rhs : SizedRegions) :
    (rotateLhs lhs n rhs).toList = lhs.toList ++ n :: rhs.toList := by
  unfold rotateLhs
  split
  · rfl
  · split
    · simp [toList]
    · rfl

@[simp]
theorem toList_rotateRhs (lhs : SizedRegions) (n : Region) (rhs : SizedRegions) :
    (rotateRhs lhs n rhs).toList = lhs.toList ++ n :: rhs.toList := by
  unfold rotateRhs
  split
  · rfl
  · split
    · simp [toList]
    · rfl

/-- The place of a region in the list. -/
structure Between (region : Region) (l1 l2 : List Region) : Prop where
  left : ∀ a ∈ l1, a.baseAddress < region.baseAddress
  right : ∀ b ∈ l2, region.baseAddress < b.baseAddress

/-- A list with a middle, cut in two: the cut is on one side of the middle. -/
theorem split_append {α : Type} {x : α} {l r l1 l2 : List α} (heq : l ++ x :: r = l1 ++ l2) :
    (∃ l', l = l1 ++ l' ∧ l2 = l' ++ x :: r) ∨ ∃ r', r = r' ++ l2 ∧ l1 = l ++ x :: r' := by
  rcases List.append_eq_append_iff.mp heq with ⟨as, rfl, has⟩ | ⟨bs, rfl, hbs⟩
  · cases as with
    | nil =>
      rw [List.nil_append] at has
      exact .inl ⟨[], by simp, has.symm⟩
    | cons a as =>
      rw [List.cons_append, List.cons.injEq] at has
      obtain ⟨rfl, rfl⟩ := has
      exact .inr ⟨as, rfl, rfl⟩
  · exact .inl ⟨bs, rfl, hbs⟩

theorem Between.split {l1 l2 : List Region} (hb : Between region l1 l2)
    (heq : l ++ x :: r = l1 ++ l2) :
    (region.baseAddress < x.baseAddress ∧ ∃ l', l = l1 ++ l' ∧ l2 = l' ++ x :: r ∧
        Between region l1 l') ∨
      (x.baseAddress < region.baseAddress ∧ ∃ r', r = r' ++ l2 ∧ l1 = l ++ x :: r' ∧
        Between region r' l2) := by
  rcases split_append heq with ⟨l', hl, rfl⟩ | ⟨r', hr, rfl⟩
  · exact .inl ⟨hb.right x (by simp), l', hl, rfl, hb.left,
      fun b hb' => hb.right b (by simp [hb'])⟩
  · exact .inr ⟨hb.left x (by simp), r', hr, rfl, fun a ha => hb.left a (by simp [ha]),
      hb.right⟩

theorem insertRec_toList (region : Region) : ∀ (t : SizedRegions) {l1 l2 : List Region},
    t.isEmpty = false → t.toList = l1 ++ l2 → Between region l1 l2 →
      ∃ t', insertRec region t = .ok t' ∧ t'.toList = l1 ++ region :: l2
  | .empty, _, _, hne, _, _ => by cases hne
  | .node lhs n rhs, l1, l2, _, heq, hb => by
    unfold insertRec
    rcases hb.split heq with ⟨hlt, l', hl, rfl, hb'⟩ | ⟨hlt, r', hr, rfl, hb'⟩
    · rw [if_neg (by omega), if_pos hlt]
      cases hempty : lhs.isEmpty with
      | true =>
        rw [isEmpty_iff.mp hempty] at hl
        obtain ⟨rfl, rfl⟩ := List.append_eq_nil_iff.mp hl.symm
        exact ⟨_, rfl, toList_rotateLhs ..⟩
      | false =>
        obtain ⟨lhs', hrun, hlist⟩ := insertRec_toList region lhs hempty hl hb'
        rw [hrun]
        refine ⟨rotateLhs lhs' n rhs, rfl, ?_⟩
        rw [toList_rotateLhs, hlist]
        simp
    · rw [if_neg (by omega), if_neg (by omega)]
      cases hempty : rhs.isEmpty with
      | true =>
        rw [isEmpty_iff.mp hempty] at hr
        obtain ⟨rfl, rfl⟩ := List.append_eq_nil_iff.mp hr.symm
        refine ⟨_, rfl, ?_⟩
        rw [toList_rotateRhs]
        simp [leaf, toList]
      | false =>
        obtain ⟨rhs', hrun, hlist⟩ := insertRec_toList region rhs hempty hr hb'
        rw [hrun]
        refine ⟨rotateRhs lhs n rhs', rfl, ?_⟩
        rw [toList_rotateRhs, hlist]
        simp

theorem insertBelow_toList (region : Region) : ∀ (t : SizedRegions) {l1 l2 : List Region},
    t.toList = l1 ++ l2 → Between region l1 l2 →
      ∃ t', insertBelow region t = .ok t' ∧ t'.toList = l1 ++ region :: l2
  | .empty, _, _, heq, _ => by
    obtain ⟨rfl, rfl⟩ := List.append_eq_nil_iff.mp heq.symm
    exact ⟨leaf region, rfl, rfl⟩
  | .node lhs n rhs, l1, l2, heq, hb => by
    unfold insertBelow
    split
    · rcases hb.split heq with ⟨hlt, l', hl, rfl, hb'⟩ | ⟨hlt, r', hr, rfl, hb'⟩
      · rw [if_neg (by omega), if_pos hlt]
        obtain ⟨lhs', hrun, hlist⟩ := insertBelow_toList region lhs hl hb'
        rw [hrun]
        refine ⟨.node lhs' n rhs, rfl, ?_⟩
        rw [toList, hlist]
        simp
      · rw [if_neg (by omega), if_neg (by omega)]
        obtain ⟨rhs', hrun, hlist⟩ := insertBelow_toList region rhs hr hb'
        rw [hrun]
        refine ⟨.node lhs n rhs', rfl, ?_⟩
        rw [toList, hlist]
        simp
    · exact insertRec_toList region _ rfl heq hb

/-- The region is put into the tree: nothing else is, and a heap stays a heap. -/
structure Adds (region : Region) (t t' : SizedRegions) : Prop where
  perm : t'.toList.Perm (region :: t.toList)
  heap : t.IsHeap → t'.IsHeap

theorem leaf_isHeap (region : Region) : (leaf region).IsHeap :=
  ⟨fun x hx => by simp [toList] at hx, trivial, trivial⟩

/-- One region was added to a heap: what is below its root is no larger than
what was there before. -/
theorem IsHeap.children_le {old : List Region} (hh : (node lhs n rhs).IsHeap)
    (hperm : (node lhs n rhs).toList.Perm (region :: old)) (hold : ∀ x ∈ old, x.size ≤ b) :
    lhs.Below b ∧ rhs.Below b := by
  have hperm' : (n :: (lhs.toList ++ rhs.toList)).Perm (region :: old) :=
    List.perm_middle.symm.trans hperm
  by_cases hn : n = region
  · subst hn
    have hmem := fun x => ((List.perm_cons n).mp hperm').mem_iff (a := x)
    exact ⟨fun x hx => hold x ((hmem x).mp (List.mem_append_left _ hx)),
      fun x hx => hold x ((hmem x).mp (List.mem_append_right _ hx))⟩
  · have hmem : n ∈ old :=
      (List.mem_cons.mp (hperm'.mem_iff.mp List.mem_cons_self)).resolve_left hn
    obtain ⟨⟨hl, hr⟩, -⟩ := isHeap_node.mp hh
    exact ⟨hl.mono (hold n hmem), hr.mono (hold n hmem)⟩

theorem perm_insert_right {r' : List Region} (h : r'.Perm (region :: r)) :
    (l ++ n :: r').Perm (region :: (l ++ n :: r)) := by
  calc (l ++ n :: r').Perm (l ++ n :: region :: r) := (h.cons n).append_left l
    List.Perm _ (l ++ region :: n :: r) := (List.Perm.swap region n r).append_left l
    List.Perm _ (region :: (l ++ n :: r)) := List.perm_middle

section Adds

variable {lhs' rhs' : SizedRegions}

theorem Adds.leaf (h : t.isEmpty = true) : Adds region t (leaf region) := by
  refine ⟨?_, fun _ => leaf_isHeap region⟩
  rw [isEmpty_iff.mp h]
  exact List.Perm.refl _

theorem Adds.rotateLhs (h : Adds region lhs lhs') :
    Adds region (node lhs n rhs) (rotateLhs lhs' n rhs) := by
  constructor
  · rw [toList_rotateLhs]
    exact h.perm.append_right _
  · intro hh
    obtain ⟨⟨hln, hrn⟩, hl, hr⟩ := isHeap_node.mp hh
    have hl' := h.heap hl
    unfold SizedRegions.rotateLhs
    split
    · exact isHeap_node.mpr ⟨⟨below_empty, hrn⟩, trivial, hr⟩
    · next ll l lr =>
      split
      · next hout =>
        have hnl := size_le_of_outranks hout
        obtain ⟨⟨hlll, hlrl⟩, hll, hlr⟩ := isHeap_node.mp hl'
        exact isHeap_node.mpr ⟨⟨hlll, below_node.mpr ⟨hlrl, hnl, hrn.mono hnl⟩⟩, hll,
          isHeap_node.mpr ⟨⟨(hl'.children_le h.perm hln).2, hrn⟩, hlr, hr⟩⟩
      · next hout =>
        exact isHeap_node.mpr ⟨⟨hl'.below (size_le_of_not_outranks hout), hrn⟩, hl', hr⟩

theorem Adds.rotateRhs (h : Adds region rhs rhs') :
    Adds region (node lhs n rhs) (rotateRhs lhs n rhs') := by
  constructor
  · rw [toList_rotateRhs]
    exact perm_insert_right h.perm
  · intro hh
    obtain ⟨⟨hln, hrn⟩, hl, hr⟩ := isHeap_node.mp hh
    have hr' := h.heap hr
    unfold SizedRegions.rotateRhs
    split
    · exact isHeap_node.mpr ⟨⟨hln, below_empty⟩, hl, trivial⟩
    · next rl r rr =>
      split
      · next hout =>
        have hnr := size_le_of_outranks hout
        obtain ⟨⟨hrlr, hrrr⟩, hrl, hrr⟩ := isHeap_node.mp hr'
        exact isHeap_node.mpr ⟨⟨below_node.mpr ⟨hln.mono hnr, hnr, hrlr⟩, hrrr⟩,
          isHeap_node.mpr ⟨⟨hln, (hr'.children_le h.perm hrn).1⟩, hl, hrl⟩, hrr⟩
      · next hout =>
        exact isHeap_node.mpr ⟨⟨hln, hr'.below (size_le_of_not_outranks hout)⟩, hl, hr'⟩

theorem Adds.below (h : Adds region t t') (hout : n.outranks region = true)
    (ht : t.Below n.size) : t'.Below n.size := by
  intro x hx
  rcases List.mem_cons.mp (h.perm.mem_iff.mp hx) with rfl | hx
  · exact size_le_of_outranks hout
  · exact ht x hx

theorem insertRec_adds : ∀ {t t' : SizedRegions}, insertRec region t = .ok t' → Adds region t t'
  | .empty, _, hrun => by cases hrun
  | .node lhs n rhs, t', hrun => by
    unfold insertRec at hrun
    split at hrun
    · cases hrun
    · split at hrun
      · split at hrun
        · next hempty =>
          cases hrun
          exact (Adds.leaf hempty).rotateLhs
        · obtain ⟨lhs', hlhs, hpure⟩ := Except.bind_eq_ok.mp hrun
          cases hpure
          exact (insertRec_adds hlhs).rotateLhs
      · split at hrun
        · next hempty =>
          cases hrun
          exact (Adds.leaf hempty).rotateRhs
        · obtain ⟨rhs', hrhs, hpure⟩ := Except.bind_eq_ok.mp hrun
          cases hpure
          exact (insertRec_adds hrhs).rotateRhs

theorem insertBelow_adds : ∀ {t t' : SizedRegions},
    insertBelow region t = .ok t' → Adds region t t'
  | .empty, _, hrun => by
    cases hrun
    exact .leaf rfl
  | .node lhs n rhs, t', hrun => by
    unfold insertBelow at hrun
    split at hrun
    · next hout =>
      split at hrun
      · cases hrun
      · split at hrun
        · obtain ⟨lhs', hlhs, hpure⟩ := Except.bind_eq_ok.mp hrun
          cases hpure
          have h := insertBelow_adds hlhs
          refine ⟨h.perm.append_right _, fun hh => ?_⟩
          obtain ⟨⟨hln, hrn⟩, hl, hr⟩ := isHeap_node.mp hh
          exact isHeap_node.mpr ⟨⟨h.below hout hln, hrn⟩, h.heap hl, hr⟩
        · obtain ⟨rhs', hrhs, hpure⟩ := Except.bind_eq_ok.mp hrun
          cases hpure
          have h := insertBelow_adds hrhs
          refine ⟨perm_insert_right h.perm, fun hh => ?_⟩
          obtain ⟨⟨hln, hrn⟩, hl, hr⟩ := isHeap_node.mp hh
          exact isHeap_node.mpr ⟨⟨hln, h.below hout hrn⟩, hl, h.heap hr⟩
    · exact insertRec_adds hrun

end Adds

/-! ## Taking a node out -/

/-- Merging two treaps makes a heap of heaps, and of nothing else: what was above
a region before is above it afterwards. -/
theorem mergeLoop_ok (fuel : Nat) : ∀ (l r : SizedRegions), l.count + r.count < fuel →
    Sorted (l.toList ++ r.toList) →
      ∃ t, mergeLoop fuel l r = .ok t ∧ t.toList = l.toList ++ r.toList ∧
        (t.IsHeap ↔ l.IsHeap ∧ r.IsHeap) := by
  induction fuel with
  | zero =>
    intro l r hfuel
    exact absurd hfuel (Nat.not_lt_zero _)
  | succ fuel ih =>
    intro l r hfuel hs
    cases l with
    | empty => exact ⟨r, rfl, rfl, by simp [IsHeap]⟩
    | node ll x lr =>
      cases r with
      | empty => exact ⟨_, rfl, (List.append_nil _).symm, by simp [IsHeap]⟩
      | node rl y rr =>
        have hxy : x.baseAddress < y.baseAddress :=
          (List.pairwise_append.mp hs).2.2 x (by simp [toList]) y (by simp [toList])
        simp only [count] at hfuel
        unfold mergeLoop
        rw [if_pos hxy]
        split
        · next hout =>
          obtain ⟨t, hrun, hlist, hheap⟩ := ih lr (.node rl y rr)
            (by simp only [count]; omega) (hs.sublist (by simp [toList]))
          have hbelow : (node rl y rr).IsHeap → (node rl y rr).Below x.size :=
            fun hr => hr.below (size_le_of_outranks hout)
          rw [hrun]
          refine ⟨.node ll x t, rfl, ?_, ?_⟩
          · rw [toList, hlist]
            simp [toList]
          · rw [isHeap_node (l := ll), isHeap_node (l := ll), below_of_append hlist, hheap]
            tauto
        · next hout =>
          obtain ⟨t, hrun, hlist, hheap⟩ := ih (.node ll x lr) rl
            (by simp only [count]; omega) (hs.sublist (by simp [toList]))
          have hbelow : (node ll x lr).IsHeap → (node ll x lr).Below y.size :=
            fun hl => hl.below (size_le_of_not_outranks hout)
          rw [hrun]
          refine ⟨.node t y rr, rfl, ?_, ?_⟩
          · rw [toList, hlist]
            simp [toList]
          · rw [isHeap_node (r := rr), isHeap_node (r := rr), below_of_append hlist, hheap]
            tauto

theorem mergeChildren_ok {l r : SizedRegions} (hs : Sorted (l.toList ++ r.toList)) :
    ∃ t, mergeChildren l r = .ok t ∧ t.toList = l.toList ++ r.toList ∧
      (t.IsHeap ↔ l.IsHeap ∧ r.IsHeap) := by
  unfold mergeChildren
  split
  · next hempty =>
    cases l with
    | node ll x lr => cases hempty
    | empty =>
      cases r with
      | node rl y rr => cases hempty
      | empty => exact ⟨.empty, rfl, rfl, by simp [IsHeap]⟩
  · exact mergeLoop_ok _ l r (Nat.lt_succ_self _) hs

/-! ## A new size for the root -/

theorem toList_pushDownRightHeap (lhs : SizedRegions) (update : Region) :
    ∀ rhs : SizedRegions,
      (pushDownRightHeap lhs update rhs).toList = lhs.toList ++ update :: rhs.toList
  | .empty => rfl
  | .node rl r rr => by
    unfold pushDownRightHeap
    split
    · rw [toList, toList_pushDownRightHeap lhs update rl]
      simp [toList]
    · rfl

theorem toList_pushDownLeftHeap (rhs : SizedRegions) (update : Region) :
    ∀ lhs : SizedRegions,
      (pushDownLeftHeap rhs update lhs).toList = lhs.toList ++ update :: rhs.toList
  | .empty => rfl
  | .node ll l lr => by
    unfold pushDownLeftHeap
    split
    · rw [toList, toList_pushDownLeftHeap rhs update lr]
      simp [toList]
    · rfl

theorem outranks_node (h : t.outranks u = true) :
    ∃ l r rest, t = .node l r rest ∧ r.outranks u = true := by
  cases t with
  | empty => cases h
  | node l r rest => exact ⟨l, r, rest, rfl, h⟩

theorem pushDownRightHeap_isHeap (hl : lhs.IsHeap) (hlu : lhs.Below u.size) :
    ∀ {rhs : SizedRegions}, rhs.IsHeap → (pushDownRightHeap lhs u rhs).IsHeap
  | .empty, _ => isHeap_node.mpr ⟨⟨hlu, below_empty⟩, hl, trivial⟩
  | .node rl r rr, hr => by
    unfold pushDownRightHeap
    split
    · next hout =>
      have hur := size_le_of_outranks hout
      obtain ⟨⟨hrlr, hrrr⟩, hrl, hrr⟩ := isHeap_node.mp hr
      refine isHeap_node.mpr ⟨⟨?_, hrrr⟩, pushDownRightHeap_isHeap hl hlu hrl, hrr⟩
      exact (below_of_toList (toList_pushDownRightHeap ..)).mpr ⟨hlu.mono hur, hur, hrlr⟩
    · next hout => exact isHeap_node.mpr ⟨⟨hlu, hr.below_of_not_outranks hout⟩, hl, hr⟩

theorem pushDownLeftHeap_isHeap (hr : rhs.IsHeap) (hru : rhs.Below u.size) :
    ∀ {lhs : SizedRegions}, lhs.IsHeap → (pushDownLeftHeap rhs u lhs).IsHeap
  | .empty, _ => isHeap_node.mpr ⟨⟨below_empty, hru⟩, trivial, hr⟩
  | .node ll l lr, hl => by
    unfold pushDownLeftHeap
    split
    · next hout =>
      have hul := size_le_of_outranks hout
      obtain ⟨⟨hlll, hlrl⟩, hll, hlr⟩ := isHeap_node.mp hl
      refine isHeap_node.mpr ⟨⟨hlll, ?_⟩, hll, pushDownLeftHeap_isHeap hr hru hlr⟩
      exact (below_of_toList (toList_pushDownLeftHeap ..)).mpr ⟨hlrl, hul, hru.mono hul⟩
    · next hout => exact isHeap_node.mpr ⟨⟨hl.below_of_not_outranks hout, hru⟩, hl, hr⟩

theorem pushDownLoop_ok (u : Region) (fuel : Nat) : ∀ (l r : SizedRegions),
    l.count + r.count < fuel → l.outranks u = true → r.outranks u = true →
      ∃ t, pushDownLoop u fuel l r = .ok t ∧ t.toList = l.toList ++ u :: r.toList ∧
        (l.IsHeap → r.IsHeap → t.IsHeap) := by
  induction fuel with
  | zero =>
    intro l r hfuel
    exact absurd hfuel (Nat.not_lt_zero _)
  | succ fuel ih =>
    intro l r hfuel hlu hru
    obtain ⟨ll, x, lr, rfl, hx⟩ := outranks_node hlu
    obtain ⟨rl, y, rr, rfl, hy⟩ := outranks_node hru
    simp only [count] at hfuel
    unfold pushDownLoop
    rw [if_neg (by simp [hx]), if_neg (by simp [hy])]
    split
    · next hyx =>
      -- all that goes below `y`
      have hnode {m : SizedRegions} (hlist : m.toList = (node ll x lr).toList ++ u :: rl.toList)
          (hl : (node ll x lr).IsHeap) (hr : (node rl y rr).IsHeap) (hm : m.IsHeap) :
          (node m y rr).IsHeap := by
        obtain ⟨⟨hrly, hrry⟩, -, hrr⟩ := isHeap_node.mp hr
        exact isHeap_node.mpr ⟨⟨(below_of_toList hlist).mpr ⟨hl.below (size_le_of_outranks hyx),
          size_le_of_outranks hy, hrly⟩, hrry⟩, hm, hrr⟩
      split
      · next hout =>
        obtain ⟨t, hrun, hlist, hheap⟩ :=
          ih (.node ll x lr) rl (by simp only [count]; omega) hlu hout
        rw [hrun]
        refine ⟨.node t y rr, rfl, ?_, fun hl hr => ?_⟩
        · rw [toList, hlist]
          simp [toList]
        · exact hnode hlist hl hr (hheap hl (isHeap_node.mp hr).2.1)
      · next hout =>
        refine ⟨_, rfl, ?_, fun hl hr => ?_⟩
        · rw [toList, toList_pushDownLeftHeap]
          simp [toList]
        · have hrl := (isHeap_node.mp hr).2.1
          exact hnode (toList_pushDownLeftHeap ..) hl hr
            (pushDownLeftHeap_isHeap hrl (hrl.below_of_not_outranks hout) hl)
    · next hyx =>
      -- all that goes below `x`
      have hnode {m : SizedRegions} (hlist : m.toList = lr.toList ++ u :: (node rl y rr).toList)
          (hl : (node ll x lr).IsHeap) (hr : (node rl y rr).IsHeap) (hm : m.IsHeap) :
          (node ll x m).IsHeap := by
        obtain ⟨⟨hllx, hlrx⟩, hll, -⟩ := isHeap_node.mp hl
        exact isHeap_node.mpr ⟨⟨hllx, (below_of_toList hlist).mpr ⟨hlrx, size_le_of_outranks hx,
          hr.below (size_le_of_not_outranks hyx)⟩⟩, hll, hm⟩
      split
      · next hout =>
        obtain ⟨t, hrun, hlist, hheap⟩ :=
          ih lr (.node rl y rr) (by simp only [count]; omega) hout hru
        rw [hrun]
        refine ⟨.node ll x t, rfl, ?_, fun hl hr => ?_⟩
        · rw [toList, hlist]
          simp [toList]
        · exact hnode hlist hl hr (hheap (isHeap_node.mp hl).2.2 hr)
      · next hout =>
        refine ⟨_, rfl, ?_, fun hl hr => ?_⟩
        · rw [toList, toList_pushDownRightHeap]
          simp [toList]
        · have hlr := (isHeap_node.mp hl).2.2
          exact hnode (toList_pushDownRightHeap ..) hl hr
            (pushDownRightHeap_isHeap hlr (hlr.below_of_not_outranks hout) hr)

theorem resizeLargestRegion_ok (newSize : Nat) (lhs : SizedRegions) (n : Region)
    (rhs : SizedRegions) :
    ∃ t, resizeLargestRegion newSize (.node lhs n rhs) = .ok t ∧
      t.toList = lhs.toList ++ { n with size := newSize } :: rhs.toList ∧
      ((node lhs n rhs).IsHeap → t.IsHeap) := by
  unfold resizeLargestRegion
  dsimp only
  split
  · next hout =>
    refine ⟨_, rfl, toList_pushDownRightHeap .., fun ⟨_, hl, hr⟩ => ?_⟩
    exact pushDownRightHeap_isHeap hl (hl.below_of_not_outranks (by simpa using hout)) hr
  · next hlout =>
    split
    · next hout =>
      refine ⟨_, rfl, toList_pushDownLeftHeap .., fun ⟨_, hl, hr⟩ => ?_⟩
      exact pushDownLeftHeap_isHeap hr (hr.below_of_not_outranks (by simpa using hout)) hl
    · next hrout =>
      obtain ⟨t, hrun, hlist, hheap⟩ := pushDownLoop_ok { n with size := newSize } _ lhs rhs
        (Nat.lt_succ_self _) (by simpa using hlout) (by simpa using hrout)
      exact ⟨t, hrun, hlist, fun ⟨_, hl, hr⟩ => hheap hl hr⟩

/-! ## Merging around an address

The address cuts the list in two; the regions next to the cut become one. -/

/-- The regions up to the address and those after it. -/
structure Cut (address : Nat) (l1 l2 : List Region) : Prop where
  left : ∀ a ∈ l1, a.baseAddress ≤ address
  right : ∀ b ∈ l2, address < b.baseAddress

theorem Cut.split {l1 l2 : List Region} (hc : Cut address l1 l2) (heq : l ++ x :: r = l1 ++ l2) :
    (address < x.baseAddress ∧ ∃ l', l = l1 ++ l' ∧ l2 = l' ++ x :: r ∧ Cut address l1 l') ∨
      (x.baseAddress ≤ address ∧ ∃ r', r = r' ++ l2 ∧ l1 = l ++ x :: r' ∧ Cut address r' l2) := by
  rcases split_append heq with ⟨l', hl, rfl⟩ | ⟨r', hr, rfl⟩
  · exact .inl ⟨hc.right x (by simp), l', hl, rfl, hc.left,
      fun b hb => hc.right b (by simp [hb])⟩
  · exact .inr ⟨hc.left x (by simp), r', hr, rfl, fun a ha => hc.left a (by simp [ha]),
      hc.right⟩

theorem findAround_eq : ∀ (t : SizedRegions) {l1 l2 : List Region}
    {predecessor successor : Option Region}, t.toList = l1 ++ l2 → Cut address l1 l2 →
    Sorted t.toList →
    (∀ p ∈ predecessor, ∀ a ∈ t.toList, p.baseAddress < a.baseAddress) →
    (∀ s ∈ successor, ∀ a ∈ t.toList, a.baseAddress < s.baseAddress) →
      findAround address predecessor successor t =
        .ok (l1.getLast?.or predecessor, l2.head?.or successor)
  | .empty, _, _, _, _, heq, _, _, _, _ => by
    obtain ⟨rfl, rfl⟩ := List.append_eq_nil_iff.mp heq.symm
    rfl
  | .node lhs n rhs, l1, l2, predecessor, successor, heq, hc, hs, hp, hq => by
    obtain ⟨⟨hsl, hsr⟩, hln, hnr, -⟩ := sorted_iff.mp hs
    unfold findAround
    rcases hc.split heq with ⟨hlt, l', hl, rfl, hc'⟩ | ⟨hle, r', hr, rfl, hc'⟩
    · have hcloser : (successor.all fun s => decide (n.baseAddress < s.baseAddress)) = true := by
        cases successor with
        | none => rfl
        | some s => simpa using hq s rfl n (by simp [toList])
      rw [if_pos hlt, if_pos hcloser, findAround_eq lhs hl hc' hsl]
      · cases l' <;> simp
      · intro p hp' a ha
        exact hp p hp' a (by simp [toList, ha])
      · intro s hs' a ha
        cases hs'
        exact hln a ha
    · have hcloser : (predecessor.all fun p => decide (p.baseAddress < n.baseAddress)) = true := by
        cases predecessor with
        | none => rfl
        | some p => simpa using hp p rfl n (by simp [toList])
      rw [if_neg (by omega), if_pos hcloser, findAround_eq rhs hr hc' hsr]
      · rw [List.getLast?_append, List.getLast?_cons]
        cases r'.getLast? <;> simp
      · intro p hp' a ha
        cases hp'
        exact hnr a ha
      · intro s hs' a ha
        exact hq s hs' a (by simp [toList, ha])

theorem hasSuccessor_eq : ∀ (t : SizedRegions) {l1 l2 : List Region},
    t.toList = l1 ++ l2 → Cut address l1 l2 → (hasSuccessor address t = true ↔ l2 ≠ [])
  | .empty, _, _, heq, _ => by
    obtain ⟨rfl, rfl⟩ := List.append_eq_nil_iff.mp heq.symm
    simp [hasSuccessor]
  | .node lhs n rhs, l1, l2, heq, hc => by
    unfold hasSuccessor
    rcases hc.split heq with ⟨hlt, l', hl, rfl, -⟩ | ⟨hle, r', hr, rfl, hc'⟩
    · simp [hlt]
    · rw [decide_eq_false (by omega), Bool.false_or]
      exact hasSuccessor_eq rhs hr hc'

theorem hasPredecessor_eq : ∀ (t : SizedRegions) {l1 l2 : List Region},
    t.toList = l1 ++ l2 → Cut address l1 l2 → (hasPredecessor address t = true ↔ l1 ≠ [])
  | .empty, _, _, heq, _ => by
    obtain ⟨rfl, rfl⟩ := List.append_eq_nil_iff.mp heq.symm
    simp [hasPredecessor]
  | .node lhs n rhs, l1, l2, heq, hc => by
    unfold hasPredecessor
    rcases hc.split heq with ⟨hlt, l', hl, rfl, hc'⟩ | ⟨hle, r', hr, rfl, -⟩
    · rw [decide_eq_false (by omega), Bool.false_or]
      exact hasPredecessor_eq lhs hl hc'
    · simp [hle]

/-- The last region with another size. -/
def grown (newSize : Nat) (l : List Region) : List Region :=
  l.dropLast ++ (l.getLast?.map fun r => { r with size := newSize }).toList

theorem grown_concat (newSize : Nat) (l : List Region) (x : Region) :
    grown newSize (l ++ [x]) = l ++ [{ x with size := newSize }] := by
  simp [grown]

theorem grown_append (newSize : Nat) (l : List Region) (hr : r ≠ []) :
    grown newSize (l ++ r) = l ++ grown newSize r := by
  obtain ⟨r', x, rfl⟩ := (List.eq_nil_or_concat r).resolve_left hr
  rw [List.concat_eq_append, ← List.append_assoc, grown_concat, grown_concat, List.append_assoc]

theorem mem_grown (hx : x ∈ grown newSize l) :
    (∃ y ∈ l, x.baseAddress = y.baseAddress) ∧ (x ∈ l ∨ x.size = newSize) := by
  rcases List.eq_nil_or_concat l with rfl | ⟨l', y, rfl⟩
  · cases hx
  · rw [List.concat_eq_append, grown_concat] at hx
    rw [List.concat_eq_append]
    rcases List.mem_append.mp hx with hx | hx
    · exact ⟨⟨x, by simp [hx], rfl⟩, .inl (by simp [hx])⟩
    · cases List.mem_singleton.mp hx
      exact ⟨⟨y, by simp, rfl⟩, .inr rfl⟩

theorem sorted_grown (hs : Sorted (l ++ r)) : Sorted (grown newSize l ++ r) := by
  rcases List.eq_nil_or_concat l with rfl | ⟨l', y, rfl⟩
  · exact hs
  · rw [List.concat_eq_append] at hs ⊢
    rw [grown_concat]
    rw [List.append_assoc] at hs ⊢
    obtain ⟨hss, hly, hyr, hlr⟩ := sorted_iff.mp hs
    exact sorted_iff.mpr ⟨hss, hly, hyr, hlr⟩

/-! Merging grows the region before the address where it is. Only what is above it
can then be too small, and of that the region after the address is taken out. -/

/-- What stays above the region before the address is at least as large as the
merged region. -/
def RoomAbove (address newSize : Nat) : SizedRegions → Prop
  | .empty => True
  | .node lhs n rhs =>
    if address < n.baseAddress then
      (hasPredecessor address lhs = true → hasSuccessor address lhs = true →
        newSize ≤ n.size) ∧ RoomAbove address newSize lhs
    else
      (hasPredecessor address rhs = true → newSize ≤ n.size) ∧
        RoomAbove address newSize rhs

instance RoomAbove.decidable (address newSize : Nat) :
    ∀ t : SizedRegions, Decidable (RoomAbove address newSize t)
  | .empty => .isTrue trivial
  | .node lhs n rhs =>
    have := RoomAbove.decidable address newSize lhs
    have := RoomAbove.decidable address newSize rhs
    inferInstanceAs (Decidable (if address < n.baseAddress then
      (hasPredecessor address lhs = true → hasSuccessor address lhs = true →
        newSize ≤ n.size) ∧ RoomAbove address newSize lhs
    else
      (hasPredecessor address rhs = true → newSize ≤ n.size) ∧
        RoomAbove address newSize rhs))

theorem below_grown (heq : t.toList = l ++ r)
    (hlist : t'.toList = grown newSize l ++ r.tail) (hb : t.Below b) :
    t'.Below b ↔ (l ≠ [] → newSize ≤ b) := by
  unfold Below at hb ⊢
  rw [heq] at hb
  rw [hlist]
  constructor
  · intro h hne
    obtain ⟨l', y, rfl⟩ := (List.eq_nil_or_concat l).resolve_left hne
    rw [List.concat_eq_append, grown_concat] at h
    exact h { y with size := newSize } (by simp)
  · intro h x hx
    rcases List.mem_append.mp hx with hx | hx
    · rcases (mem_grown hx).2 with hmem | heq
      · exact hb x (by simp [hmem])
      · rw [heq]
        apply h
        rintro rfl
        simp [grown] at hx
    · exact hb x (by simp [List.mem_of_mem_tail hx])

theorem mergeSlots_ok (newSize : Nat) : ∀ (t : SizedRegions)
    {l1 l2 : List Region}, t.toList = l1 ++ l2 → Cut address l1 l2 → Sorted t.toList →
      ∃ t', mergeSlots address newSize t = .ok t' ∧
        t'.toList = grown newSize l1 ++ l2.tail ∧
        ((∀ p ∈ l1.getLast?, p.size ≤ newSize) → t.IsHeap →
          (t'.IsHeap ↔ RoomAbove address newSize t))
  | .empty, _, _, heq, _, _ => by
    obtain ⟨rfl, rfl⟩ := List.append_eq_nil_iff.mp heq.symm
    exact ⟨.empty, rfl, rfl, by simp [IsHeap, RoomAbove]⟩
  | .node lhs n rhs, l1, l2, heq, hc, hs => by
    obtain ⟨⟨hsl, hsr⟩, -⟩ := sorted_iff.mp hs
    unfold mergeSlots RoomAbove
    rcases hc.split heq with ⟨hlt, l', hl, rfl, hc'⟩ | ⟨hle, r', hr, rfl, hc'⟩
    · obtain ⟨merged, hrun, hlist, hheap⟩ := mergeSlots_ok newSize lhs hl hc' hsl
      rw [if_pos hlt, if_pos hlt, hrun]
      by_cases hsucc : hasSuccessor address lhs = true
      · -- the node stays, above the region that has grown
        obtain ⟨x, xs, rfl⟩ :=
          List.exists_cons_of_ne_nil ((hasSuccessor_eq lhs hl hc').mp hsucc)
        refine ⟨.node merged n rhs, if_pos hsucc, ?_, fun hgrow hh => ?_⟩
        · rw [toList, hlist]
          simp
        · obtain ⟨⟨hln, hrn⟩, hlh, hrh⟩ := isHeap_node.mp hh
          rw [isHeap_node, below_grown hl hlist hln, ← hasPredecessor_eq lhs hl hc',
            hheap hgrow hlh]
          tauto
      · -- the node is the region after the address
        have hnil : l' = [] := by
          by_contra hne
          exact hsucc ((hasSuccessor_eq lhs hl hc').mpr hne)
        subst hnil
        have hsorted : Sorted (merged.toList ++ rhs.toList) := by
          rw [hlist, List.tail_nil, List.append_nil]
          apply sorted_grown
          rw [toList, hl] at hs
          exact hs.sublist (by simp)
        obtain ⟨t', hmerge, hlist', hheap'⟩ := mergeChildren_ok hsorted
        refine ⟨t', (if_neg hsucc).trans hmerge, ?_, fun hgrow hh => ?_⟩
        · rw [hlist', hlist]
          simp
        · obtain ⟨-, hlh, hrh⟩ := hh
          rw [hheap', hheap hgrow hlh]
          tauto
    · obtain ⟨merged, hrun, hlist, hheap⟩ := mergeSlots_ok newSize rhs hr hc' hsr
      rw [if_neg (by omega), if_neg (by omega), hrun]
      by_cases hpred : hasPredecessor address rhs = true
      · have hne := (hasPredecessor_eq rhs hr hc').mp hpred
        refine ⟨.node lhs n merged, if_pos hpred, ?_, fun hgrow hh => ?_⟩
        · have hgrown : grown newSize (lhs.toList ++ n :: r') =
              lhs.toList ++ n :: grown newSize r' := by
            rw [← List.singleton_append, ← List.append_assoc, grown_append _ _ hne]
            simp
          rw [toList, hlist, hgrown]
          simp
        · obtain ⟨⟨hln, hrn⟩, hlh, hrh⟩ := isHeap_node.mp hh
          have hgrow' : ∀ p ∈ r'.getLast?, p.size ≤ newSize := by
            intro p hp
            apply hgrow p
            rw [List.getLast?_append, List.getLast?_cons, Option.mem_def.mp hp]
            rfl
          rw [isHeap_node, below_grown hr hlist hrn, ← hasPredecessor_eq rhs hr hc',
            hheap hgrow' hrh]
          tauto
      · -- the node is the region before the address
        have hnil : r' = [] := by
          by_contra hne
          exact hpred ((hasPredecessor_eq rhs hr hc').mpr hne)
        subst hnil
        refine ⟨.node lhs { n with size := newSize } merged, if_neg hpred, ?_,
          fun hgrow hh => ?_⟩
        · rw [toList, hlist, grown_concat]
          simp [grown]
        · obtain ⟨⟨hln, hrn⟩, hlh, hrh⟩ := isHeap_node.mp hh
          have hnsize : n.size ≤ newSize := hgrow n (by simp)
          have hlnew := hln.mono hnsize
          rw [isHeap_node, below_grown hr hlist (hrn.mono hnsize), hheap (by simp) hrh]
          tauto

/-- The size of two regions and what is between them. -/
def mergedSize (p q : Region) : Nat :=
  Word.sub (Word.add q.baseAddress q.size) p.baseAddress

/-- The size of the region that a merge around the address leaves. -/
def mergedAround (address : Nat) (t : SizedRegions) : Nat :=
  match findAround address none none t with
  | .ok (some p, some q) => mergedSize p q
  | _ => 0

section Around

variable {l1 l2 : List Region} {p q : Region} (heq : t.toList = l1 ++ p :: q :: l2)
  (hs : Sorted t.toList) (hp : p.baseAddress ≤ address) (hq : address < q.baseAddress)

include heq hs hp hq

theorem cut_around : t.toList = (l1 ++ [p]) ++ q :: l2 ∧ Cut address (l1 ++ [p]) (q :: l2) := by
  rw [heq] at hs ⊢
  obtain ⟨⟨-, hsr⟩, hlp, -, -⟩ := sorted_iff.mp hs
  have hql : ∀ b ∈ l2, q.baseAddress < b.baseAddress := (List.pairwise_cons.mp hsr).1
  refine ⟨by simp, fun a ha => ?_, fun b hb => ?_⟩
  · rcases List.mem_append.mp ha with ha | ha
    · exact le_of_lt (lt_of_lt_of_le (hlp a ha) hp)
    · cases List.mem_singleton.mp ha
      exact hp
  · rcases List.mem_cons.mp hb with rfl | hb
    · exact hq
    · exact lt_trans hq (hql b hb)

theorem findAround_around : findAround address none none t = .ok (some p, some q) := by
  obtain ⟨heq', hcut⟩ := cut_around heq hs hp hq
  rw [findAround_eq t heq' hcut hs (by simp) (by simp), List.getLast?_append]
  rfl

theorem mergeAroundAddress_eq :
    mergeAroundAddress t address = mergeSlots address (mergedSize p q) t := by
  have hne : ¬ t.isEmpty = true := by
    intro hempty
    rw [isEmpty_iff.mp hempty] at heq
    simp at heq
  unfold mergeAroundAddress
  rw [if_neg hne, findAround_around heq hs hp hq]
  rfl

/-- The regions next to the address become one region, in place of the first. That
keeps the heap order just when what stays above the merged region is as large. -/
theorem mergeAroundAddress_ok :
    ∃ t', mergeAroundAddress t address = .ok t' ∧
      t'.toList = l1 ++ { p with size := mergedSize p q } :: l2 ∧
      (p.size ≤ mergedSize p q → t.IsHeap →
        (t'.IsHeap ↔ RoomAbove address (mergedAround address t) t)) := by
  obtain ⟨heq', hcut⟩ := cut_around heq hs hp hq
  obtain ⟨t', hrun, hlist, hheap⟩ := mergeSlots_ok (mergedSize p q) t heq' hcut hs
  have hmerged : mergedAround address t = mergedSize p q := by
    unfold mergedAround
    rw [findAround_around heq hs hp hq]
  refine ⟨t', (mergeAroundAddress_eq heq hs hp hq).trans hrun, ?_, fun hsize hh => ?_⟩
  · rw [hlist, grown_concat]
    simp
  · rw [hmerged]
    refine hheap (fun r hr => ?_) hh
    rw [List.getLast?_append, List.getLast?_singleton] at hr
    cases hr
    exact hsize

end Around

end VitalSE.SizedRegions
