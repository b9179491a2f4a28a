import VitalSE.Core.Searcher
import VitalSE.Proofs.ProcessTreeSound

/-!
# The tags of the random-path searchers

The tag of a pointer has a bit for each searcher that owns a state below. `Tagged`
says so node by node: the tag of the pointer to a leaf is the owners of its state,
and that of the pointer to an inner node is the union of the tags of the children.
Forks, removals and compression keep this as it is.

The walks of a searcher change one pointer at a time, and in between the equation
is wrong at one node: the bit of the searcher is still to be added there, or to be
taken away. So `Tagged` is stated for a relation between the tag that is there and
the one that should be, and the walk moves the node where it is not equality up
to the root.
-/

namespace VitalSE

open LinkedTree (Side)
open PTreeNode (state_setChild child_setChild child_setChild_of_ne hasChild_eq_false)

variable {ptr : PTreeNodePtr} {c : NodeRef} {st : StateRef} {i : Fin 3} {x y : BitVec 3}

/-- The tag, which only counts if the pointer is not null. -/
def PTreeNodePtr.tag (ptr : PTreeNodePtr) : BitVec 3 :=
  if ptr.pointer.isSome then ptr.int else 0

namespace PTreeNodePtr

theorem tag_of_some (h : ptr.pointer = some c) : ptr.tag = ptr.int := by
  unfold tag
  rw [h]
  rfl

theorem tag_of_none (h : ptr.pointer = none) : ptr.tag = 0 := by
  unfold tag
  rw [h]
  rfl

end PTreeNodePtr

open PTreeNodePtr (tag_of_none tag_of_some)

namespace PTree

/-- What the tag of the pointer to a node should be. -/
def tagBelow (own : StateRef → BitVec 3) (a : PTreeNode) : BitVec 3 :=
  match a.state with
  | some s => own s
  | none => a.left.tag ||| a.right.tag

variable {t t' : PTree} {n p v : NodeRef} {a b : PTreeNode} {s : Side}
  {own : StateRef → BitVec 3} {ptr' : PTreeNodePtr} {int : BitVec 3}
  {R : NodeRef → BitVec 3 → BitVec 3 → Prop}

theorem tagBelow_state (h : a.state = some st) : tagBelow own a = own st := by
  unfold tagBelow
  rw [h]

theorem tagBelow_inner (h : a.state = none) :
    tagBelow own a = (a.child .left).tag ||| (a.child .right).tag := by
  unfold tagBelow
  rw [h]
  rfl

theorem tagBelow_setChild (h : ptr.tag = (a.child s).tag) :
    tagBelow own (a.setChild ptr s) = tagBelow own a := by
  unfold tagBelow
  rw [state_setChild]
  cases a.state with
  | some st => rfl
  | none =>
    cases s with
    | left =>
      show ptr.tag ||| a.right.tag = _
      rw [h]
      rfl
    | right =>
      show a.left.tag ||| ptr.tag = _
      rw [h]
      rfl

theorem tagBelow_setChild_or {mask : BitVec 3} (hstate : a.state = none)
    (h : ptr.tag = ptr'.tag ||| mask) :
    tagBelow own (a.setChild ptr s) = tagBelow own (a.setChild ptr' s) ||| mask := by
  rw [tagBelow_inner (state_setChild.trans hstate), tagBelow_inner (state_setChild.trans hstate)]
  cases s with
  | left =>
    show ptr.tag ||| a.right.tag = ptr'.tag ||| a.right.tag ||| mask
    rw [h, BitVec.or_assoc, BitVec.or_comm mask, BitVec.or_assoc]
  | right =>
    show a.left.tag ||| ptr.tag = a.left.tag ||| ptr'.tag ||| mask
    rw [h, BitVec.or_assoc]

/-- The tags of the pointers to the nodes, against what they should be. -/
structure TaggedBy (t : PTree) (own : StateRef → BitVec 3)
    (R : NodeRef → BitVec 3 → BitVec 3 → Prop) : Prop where
  child : ∀ {p b s c a}, t.nodes p = some b → (b.child s).pointer = some c →
    t.nodes c = some a → R c (b.child s).int (tagBelow own a)
  root : ∀ {v a}, t.nodes v = some a → a.parent = none → R v t.root.int (tagBelow own a)
  bare : t.root.int ≠ 0 → ∃ v a, t.nodes v = some a ∧ a.parent = none
  inner : ∀ {v a}, t.nodes v = some a → a.hasChild = true → a.state = none

/-- Every tag is exactly what the states below say. -/
def Tagged (t : PTree) (own : StateRef → BitVec 3) : Prop := t.TaggedBy own fun _ => Eq

/-- The node of a state is a leaf. -/
theorem TaggedBy.leaf (h : t.TaggedBy own R) (hn : t.nodes n = some a)
    (hstate : a.state = some st) : a.hasChild = false := by
  by_contra hchild
  rw [h.inner hn (Bool.not_eq_false _ ▸ hchild)] at hstate
  cases hstate

namespace Tagged

variable {compressProcessTree : Bool}

/-! ## Forks and removals -/

theorem create {initialState : StateRef} (hzero : own initialState = 0) :
    (PTree.create initialState).Tagged own := by
  refine ⟨?_, ?_, fun hroot => absurd rfl hroot, ?_⟩
  · intro p b s c a hp hs
    obtain ⟨-, rfl⟩ := create_nodes hp
    rw [Linked.child_create] at hs
    cases hs
  · intro v a hv _
    obtain ⟨-, rfl⟩ := create_nodes hv
    rw [tagBelow_state rfl, hzero]
    rfl
  · intro v a hv hchild
    obtain ⟨-, rfl⟩ := create_nodes hv
    cases hchild

theorem hasChild_of_child (hs : (b.child s).pointer = some c) : b.hasChild = true :=
  PTreeNode.hasChild_iff.mpr ⟨s, c, hs⟩

variable (h : t.Tagged own)

include h

theorem child_tag (hp : t.nodes p = some b)
    (hs : (b.child s).pointer = some c) (hc : t.nodes c = some a) :
    (b.child s).tag = tagBelow own a := by
  rw [tag_of_some hs]
  exact h.child hp hs hc

/-- A leaf that nobody owns is cut off. -/
theorem dropped (hd : Dropped t t' n a) (hzero : tagBelow own a = 0) : t'.Tagged own := by
  have hwas : ∀ {v a'}, t'.nodes v = some a' → ∃ e, t.nodes v = some e ∧
      a'.parent = e.parent ∧ a'.state = e.state ∧ tagBelow own a' = tagBelow own e ∧
      ∀ s c, (a'.child s).pointer = some c → a'.child s = e.child s := by
    intro v a' hv
    obtain ⟨-, ⟨b, s, -, hb, hs, rfl⟩ | ⟨-, hv⟩⟩ := hd.cases hv
    · refine ⟨b, hb, PTreeNode.parent_setChild, state_setChild, tagBelow_setChild ?_, ?_⟩
      · rw [h.child_tag hb hs hd.present, hzero]
        rfl
      · intro s' c hc
        rw [child_setChild_of_ne]
        rintro rfl
        rw [child_setChild] at hc
        cases hc
    · exact ⟨a', hv, rfl, rfl, rfl, fun _ _ _ => rfl⟩
  refine ⟨?_, ?_, ?_, ?_⟩
  · intro p b' s c a' hp hs hc
    obtain ⟨b, hb, -, -, -, hchild⟩ := hwas hp
    obtain ⟨e, he, -, -, htag, -⟩ := hwas hc
    rw [htag, hchild s c hs]
    rw [hchild s c hs] at hs
    exact h.child hb hs he
  · intro v a' hv hparent
    obtain ⟨e, he, hpar, -, htag, -⟩ := hwas hv
    rw [hd.root, htag]
    exact h.root he (hpar.symm.trans hparent)
  · intro hroot
    rw [hd.root] at hroot
    obtain ⟨v, e, he, hpar⟩ := h.bare hroot
    have hvn : v ≠ n := by
      rintro rfl
      rw [hd.present] at he
      cases he
      exact hroot ((h.root hd.present hpar).trans hzero)
    obtain ⟨e', he', -, hpar'⟩ := hd.keeps hvn he
    exact ⟨v, e', he', hpar'.trans hpar⟩
  · intro v a' hv hchild
    obtain ⟨e, he, -, hstate, -, hch⟩ := hwas hv
    obtain ⟨s, c, hs⟩ := PTreeNode.hasChild_iff.mp hchild
    rw [hstate]
    exact h.inner he (hasChild_of_child (hch s c hs ▸ hs))

/-- What is left of an inner node without children has nothing below. -/
theorem dropped_parent (hd : Dropped t t' n a)
    (hparent : a.parent = some p) (hb : t'.nodes p = some b) (hleaf : b.hasChild = false) :
    tagBelow own b = 0 := by
  obtain ⟨d, s, hd0, hs, hd'⟩ := hd.parent hparent
  rw [hb] at hd'
  cases hd'
  have hnone := hasChild_eq_false.mp hleaf
  rw [tagBelow_inner (state_setChild.trans (h.inner hd0 (hasChild_of_child hs))),
    tag_of_none (hnone .left), tag_of_none (hnone .right)]
  rfl

/-- The tag of a node with one child is that of the child. -/
theorem tagBelow_straight (hn : t.nodes n = some a) (hchild : (a.child s).pointer = some c)
    (hother : ∀ s' ≠ s, (a.child s').pointer = none) : tagBelow own a = (a.child s).tag := by
  rw [tagBelow_inner (h.inner hn (hasChild_of_child hchild))]
  cases s with
  | left =>
    rw [tag_of_none (hother .right nofun)]
    exact BitVec.or_zero
  | right =>
    rw [tag_of_none (hother .left nofun)]
    exact BitVec.zero_or

variable (hl : t.Linked)

include hl

theorem spliced (hs : Spliced t t' n a s c b) : t'.Tagged own := by
  have hstraight := h.tagBelow_straight hs.present hs.child hs.only
  have hcn : b.parent = some n := hl.parent_eq hs.present hs.child hs.below
  have hwas : ∀ {v a'}, t'.nodes v = some a' → ∃ e, t.nodes v = some e ∧
      (v ≠ c → a'.parent = e.parent) ∧ a'.state = e.state ∧
      tagBelow own a' = tagBelow own e ∧ (a'.hasChild = true → e.hasChild = true) ∧
      ∀ s1 x, (a'.child s1).pointer = some x → a'.child s1 = e.child s1 ∨
        x = c ∧ a'.child s1 = a.child s := by
    intro v a' hv
    obtain ⟨-, ⟨rfl, rfl⟩ | ⟨d, s', -, hd, hds, rfl⟩ | ⟨-, -, hv⟩⟩ := hs.cases hv
    · exact ⟨b, hs.below, fun hne => absurd rfl hne, rfl, rfl, id,
        fun s1 x _ => .inl (by cases s1 <;> rfl)⟩
    · refine ⟨d, hd, fun _ => PTreeNode.parent_setChild, state_setChild,
        tagBelow_setChild ?_, fun _ => hasChild_of_child hds, fun s1 x hx => ?_⟩
      · rw [h.child_tag hd hds hs.present, hstraight]
      · by_cases hss : s1 = s'
        · subst hss
          rw [child_setChild] at hx ⊢
          rw [hs.child] at hx
          exact .inr ⟨(Option.some.inj hx).symm, rfl⟩
        · exact .inl (child_setChild_of_ne hss)
    · exact ⟨a', hv, fun _ => rfl, rfl, rfl, id, fun _ _ _ => .inl rfl⟩
  refine ⟨?_, ?_, ?_, ?_⟩
  · intro p b' s1 x a' hp hx hc
    obtain ⟨d, hd, -, -, -, -, hchild⟩ := hwas hp
    obtain ⟨e, he, -, -, htag, -⟩ := hwas hc
    rw [htag]
    rcases hchild s1 x hx with heq | ⟨rfl, heq⟩
    · rw [heq] at hx ⊢
      exact h.child hd hx he
    · rw [heq]
      exact h.child hs.present hs.child he
  · intro v a' hv hparent
    obtain ⟨e, he, hpar, -, htag, -⟩ := hwas hv
    rw [hs.root, htag]
    by_cases hvc : v = c
    · subst hvc
      rw [hs.moved] at hv
      cases hv
      rw [if_pos hparent]
      exact h.child hs.present hs.child he
    · have hroot := h.root he ((hpar hvc).symm.trans hparent)
      split
      next hnone =>
        -- the node that is taken out was the root as well
        rw [← hroot, h.root hs.present hnone, hstraight, tag_of_some hs.child]
      next => exact hroot
  · intro hroot
    rw [hs.root] at hroot
    by_cases hnone : a.parent = none
    · exact ⟨c, _, hs.moved, hnone⟩
    · rw [if_neg hnone] at hroot
      obtain ⟨v, e, he, hpar⟩ := h.bare hroot
      have hvn : v ≠ n := by
        rintro rfl
        rw [hs.present] at he
        cases he
        exact hnone hpar
      have hvc : v ≠ c := by
        rintro rfl
        rw [hs.below] at he
        cases he
        rw [hcn] at hpar
        cases hpar
      obtain ⟨e', he', -, hpar'⟩ := hs.keeps hvn he
      exact ⟨v, e', he', (hpar' hvc).trans hpar⟩
  · intro v a' hv hchild
    obtain ⟨e, he, -, hstate, -, hhas, -⟩ := hwas hv
    rw [hstate]
    exact h.inner he (hhas hchild)

theorem remove (hzero : ∀ a, t.nodes n = some a → tagBelow own a = 0)
    (hrun : t.remove compressProcessTree n = .ok t') : t'.Tagged own := by
  refine remove_rule hl hrun (I := fun t => t.Tagged own)
    (J := fun t n => t.Tagged own ∧
      ∀ a, t.nodes n = some a → a.hasChild = false → tagBelow own a = 0)
    ?_ (fun hl hI hs => hI.spliced hl hs) ⟨h, fun a ha _ => hzero a ha⟩
  intro t t' n a _ hJ hd
  have hI := hJ.1.dropped hd (hJ.2 a hd.present hd.leaf)
  exact ⟨hI, fun p hp => ⟨hI, fun b hb hleaf => hJ.1.dropped_parent hd hp hb hleaf⟩⟩

/-- The states of other leaves stay where they are. -/
theorem remove_keeps {e : PTreeNode} (hn : t.nodes n = some a)
    (hzero : tagBelow own a = 0) (hst : a.state ≠ some st) (hv : t.nodes v = some e)
    (he : e.state = some st) (hrun : t.remove compressProcessTree n = .ok t') :
    ∃ e', t'.nodes v = some e' ∧ e'.state = some st := by
  -- what is cut off has another state, or none
  refine (remove_rule hl hrun
    (I := fun t => t.Tagged own ∧ ∃ e', t.nodes v = some e' ∧ e'.state = some st)
    (J := fun t n => (t.Tagged own ∧ ∃ e', t.nodes v = some e' ∧ e'.state = some st) ∧
      ∀ a, t.nodes n = some a → a.hasChild = false → tagBelow own a = 0 ∧ a.state ≠ some st)
    ?_ ?_ ⟨⟨h, e, hv, he⟩, fun b hb _ => ?_⟩).2
  · rintro t t' n a - ⟨⟨h, e, hv, he⟩, hJ⟩ hd
    obtain ⟨hzero, hst⟩ := hJ a hd.present hd.leaf
    have hvn : v ≠ n := by
      rintro rfl
      rw [hd.present] at hv
      cases hv
      exact hst he
    obtain ⟨e', hv', he', -⟩ := hd.keeps hvn hv
    refine ⟨⟨h.dropped hd hzero, e', hv', he'.trans he⟩, fun p hp =>
      ⟨⟨h.dropped hd hzero, e', hv', he'.trans he⟩, fun b hb hleaf =>
        ⟨h.dropped_parent hd hp hb hleaf, ?_⟩⟩⟩
    obtain ⟨d, s, hd0, hs, hd'⟩ := hd.parent hp
    rw [hb] at hd'
    cases hd'
    rw [state_setChild, h.inner hd0 (hasChild_of_child hs)]
    exact nofun
  · rintro t t' n a s c b hl ⟨h, e, hv, he⟩ hs
    have hvn : v ≠ n := by
      rintro rfl
      rw [hs.present] at hv
      cases hv
      rw [h.inner hs.present (hasChild_of_child hs.child)] at he
      cases he
    obtain ⟨e', hv', he', -⟩ := hs.keeps hvn hv
    exact ⟨h.spliced hl hs, e', hv', he'.trans he⟩
  · rw [hn] at hb
    cases hb
    exact ⟨hzero, hst⟩

theorem attached {l r : StateRef} (ha : Attached t t' n a (own r) l r)
    (hstate : a.state = some r) (hnew : own l = 0) : t'.Tagged own := by
  have hcreate : ∀ {st : StateRef}, tagBelow own (.create (some n) st) = own st :=
    tagBelow_state rfl
  -- the new leaves are not where an old pointer points to
  have hwas : ∀ {v a'}, t'.nodes v = some a' → v < t.nextNode →
      ∃ e, t.nodes v = some e ∧ a'.parent = e.parent ∧ tagBelow own a' = tagBelow own e := by
    intro v a' hv hlt
    obtain ⟨rfl, rfl⟩ | ⟨st, -, hge, -⟩ | ⟨-, hv⟩ := ha.cases hv
    · refine ⟨a, ha.present, rfl, ?_⟩
      rw [tagBelow_state hstate]
      exact BitVec.zero_or
    · exact absurd hlt hge.not_gt
    · exact ⟨a', hv, rfl, rfl⟩
  refine ⟨?_, ?_, ?_, ?_⟩
  · intro p b' s c a' hp hs hc
    obtain ⟨rfl, rfl⟩ | ⟨st, rfl, -⟩ | ⟨-, hp⟩ := ha.cases hp
    · cases s with
      | left =>
        cases hs
        rw [ha.left] at hc
        cases hc
        rw [hcreate, hnew]
        rfl
      | right =>
        cases hs
        rw [ha.right] at hc
        cases hc
        rw [hcreate]
        rfl
    · rw [Linked.child_create] at hs
      cases hs
    · obtain ⟨e0, he0, -⟩ := hl.child hp hs
      obtain ⟨e, he, -, htag⟩ := hwas hc (hl.bound he0)
      rw [htag]
      exact h.child hp hs he
  · intro v a' hv hparent
    rw [ha.root]
    obtain ⟨rfl, rfl⟩ | ⟨st, rfl, -⟩ | ⟨-, hv'⟩ := ha.cases hv
    · obtain ⟨e, he, hpar, htag⟩ := hwas hv (hl.bound ha.present)
      rw [htag]
      exact h.root he (hpar.symm.trans hparent)
    · cases hparent
    · exact h.root hv' hparent
  · intro hroot
    rw [ha.root] at hroot
    obtain ⟨v, e, he, hpar⟩ := h.bare hroot
    by_cases hvn : v = n
    · subst hvn
      rw [ha.present] at he
      cases he
      exact ⟨v, _, ha.forked, hpar⟩
    · exact ⟨v, e, ha.old hl hvn he, hpar⟩
  · intro v a' hv hchild
    obtain ⟨rfl, rfl⟩ | ⟨st, rfl, -⟩ | ⟨-, hv⟩ := ha.cases hv
    · rfl
    · cases hchild
    · exact h.inner hv hchild

end Tagged

/-! ## Changing one tag -/

/-- The pointer to a node, with what its tag is compared with. -/
theorem TaggedBy.childPtr (hl : t.Linked) (hh : t.Hung) (h : t.TaggedBy own R)
    (hn : t.nodes v = some a) :
    ∃ ptr, t.childPtr v = .ok ptr ∧ ptr.pointer = some v ∧ R v ptr.int (tagBelow own a) := by
  cases hparent : a.parent with
  | none => exact ⟨t.root, childPtr_root hn hparent, hh.root hn hparent, h.root hn hparent⟩
  | some p =>
    obtain ⟨b, s, hb, hs⟩ := hh.parent hn hparent
    exact ⟨b.child s, childPtr_child hl hn hparent hb hs, hs, h.child hb hs hn⟩

/-- The tags change, and nothing else. -/
structure Retagged (t t' : PTree) : Prop where
  links : SameLinks t t'
  state : ∀ {v a'}, t'.nodes v = some a' → ∃ a, t.nodes v = some a ∧ a'.state = a.state

theorem Retagged.refl : Retagged t t := ⟨.refl, fun h => ⟨_, h, rfl⟩⟩

theorem Retagged.trans {t'' : PTree} (h : Retagged t t') (h' : Retagged t' t'') :
    Retagged t t'' where
  links := h.links.trans h'.links
  state := by
    intro v a'' hv
    obtain ⟨a', ha', hs'⟩ := h'.state hv
    obtain ⟨a, ha, hs⟩ := h.state ha'
    exact ⟨a, ha, hs'.trans hs⟩

theorem setChildInt_root (hn : t.nodes v = some a) (hparent : a.parent = none) :
    t.setChildInt v int = .ok { t with root := { t.root with int := int } } := by
  rw [setChildInt, node_eq_ok.mpr hn]
  dsimp only [bind, Except.bind]
  rw [hparent]
  rfl

theorem setChildInt_child (hl : t.Linked) (hn : t.nodes v = some a)
    (hparent : a.parent = some p) (hp : t.nodes p = some b) (hs : (b.child s).pointer = some v) :
    t.setChildInt v int = .ok (t.setNode p (b.setChild ⟨some v, int⟩ s)) := by
  rw [setChildInt, node_eq_ok.mpr hn]
  dsimp only [bind, Except.bind]
  rw [hparent]
  dsimp only [modifyNode, bind, Except.bind]
  rw [node_eq_ok.mpr hp]
  have hside := hl.side_eq
    (fun s => b.setChild ⟨(b.child s).pointer, int⟩ s) hp hs
  show Except.ok (t.setNode p (if b.left.pointer = some v then
    b.setChild ⟨(b.child .left).pointer, int⟩ .left
      else b.setChild ⟨(b.child .right).pointer, int⟩ .right)) = _
  rw [hside, hs]

theorem child_pointer_setChild (hs : (b.child s).pointer = some v) (s' : Side) :
    ((b.setChild ⟨some v, int⟩ s).child s').pointer = (b.child s').pointer := by
  by_cases hss : s' = s
  · subst hss
    rw [child_setChild, hs]
  · rw [child_setChild_of_ne hss]

/-- The relation that holds after the tag of the pointer to a node was set: the
equation is looked at again at the node and at its parent. -/
theorem TaggedBy.setChildInt {R' : NodeRef → BitVec 3 → BitVec 3 → Prop} (hl : t.Linked)
    (hh : t.Hung) (h : t.TaggedBy own R) (hn : t.nodes v = some a)
    (hself : R' v int (tagBelow own a))
    (hother : ∀ c x y, c ≠ v → a.parent ≠ some c → R c x y → R' c x y)
    (hparent : ∀ p b s x, a.parent = some p → t.nodes p = some b →
      (b.child s).pointer = some v → b.state = none → R p x (tagBelow own b) →
        R' p x (tagBelow own (b.setChild ⟨some v, int⟩ s))) :
    ∃ t', t.setChildInt v int = .ok t' ∧ Retagged t t' ∧ t'.TaggedBy own R' := by
  cases hpar : a.parent with
  | none =>
    refine ⟨_, setChildInt_root hn hpar, ⟨⟨fun hv => ⟨_, hv, rfl, fun _ => rfl⟩,
      fun hv => ⟨_, hv⟩, rfl, rfl⟩, fun hv => ⟨_, hv, rfl⟩⟩, ?_, ?_, ?_, ?_⟩
    · intro p b s c e hp hs hc
      have hcv : c ≠ v := by
        rintro rfl
        have := hl.parent_eq hp hs hn
        rw [hpar] at this
        cases this
      exact hother c _ _ hcv (by rw [hpar]; exact nofun) (h.child hp hs hc)
    · intro w e hw hnone
      have hwv : some w = some v := (hh.root hw hnone).symm.trans (hh.root hn hpar)
      cases hwv
      rw [show t.nodes v = some e from hw] at hn
      cases hn
      exact hself
    · intro _
      exact ⟨v, a, hn, hpar⟩
    · intro w e hw
      exact h.inner hw
  | some p =>
    obtain ⟨b, s, hb, hs⟩ := hh.parent hn hpar
    have hvp : v ≠ p := (hl.parent_lt hn hpar).ne'
    have hstate : b.state = none := h.inner hb (Tagged.hasChild_of_child hs)
    have hlinks : SameLinks t (t.setNode p (b.setChild ⟨some v, int⟩ s)) :=
      .setNode hb PTreeNode.parent_setChild (child_pointer_setChild hs)
    -- the tag of the pointer to a node that is not the one whose tag was set
    have hcompare : ∀ {c e x}, c ≠ v → (t.setNode p (b.setChild ⟨some v, int⟩ s)).nodes c =
        some e → (∀ e0, t.nodes c = some e0 → R c x (tagBelow own e0)) →
        R' c x (tagBelow own e) := by
      intro c e x hcv hc hR
      obtain ⟨rfl, rfl⟩ | ⟨hcp, hc⟩ := nodes_setNode_cases hc
      · exact hparent c b s x hpar hb hs hstate (hR b hb)
      · refine hother c x _ hcv ?_ (hR e hc)
        rw [hpar]
        exact fun heq => hcp (Option.some.inj heq).symm
    refine ⟨_, setChildInt_child hl hn hpar hb hs, ⟨hlinks, ?_⟩, ?_, ?_, ?_, ?_⟩
    · intro w e hw
      obtain ⟨rfl, rfl⟩ | ⟨-, hw⟩ := nodes_setNode_cases hw
      · exact ⟨b, hb, state_setChild⟩
      · exact ⟨e, hw, rfl⟩
    · intro q d s' c e hq hs' hc
      obtain ⟨rfl, rfl⟩ | ⟨hqp, hq'⟩ := nodes_setNode_cases hq
      · by_cases hss : s' = s
        · subst hss
          rw [child_setChild] at hs' ⊢
          cases hs'
          rw [nodes_setNode_of_ne hvp, hn] at hc
          cases hc
          exact hself
        · rw [child_setChild_of_ne hss] at hs' ⊢
          refine hcompare ?_ hc fun e0 he0 => h.child hb hs' he0
          rintro rfl
          exact hss (hl.distinct hb hs' hs)
      · refine hcompare ?_ hc fun e0 he0 => h.child hq' hs' he0
        rintro rfl
        have := hl.parent_eq hq' hs' hn
        rw [hpar] at this
        exact hqp (Option.some.inj this).symm
    · intro w e hw hnone
      have hwv : w ≠ v := by
        rintro rfl
        rw [nodes_setNode_of_ne hvp, hn] at hw
        cases hw
        rw [hpar] at hnone
        cases hnone
      refine hcompare hwv hw fun e0 he0 => h.root he0 ?_
      obtain ⟨e1, he1, hpar1, -⟩ := hlinks.nodes hw
      rw [he0] at he1
      cases he1
      exact hpar1.symm.trans hnone
    · intro hroot
      obtain ⟨w, e, he, hnone⟩ := h.bare hroot
      obtain ⟨e', he', hpar', -⟩ := hlinks.symm.nodes he
      exact ⟨w, e', he', hpar'.symm.trans hnone⟩
    · intro w e hw hchild
      obtain ⟨rfl, rfl⟩ | ⟨-, hw⟩ := nodes_setNode_cases hw
      · exact state_setChild.trans hstate
      · exact h.inner hw hchild

/-! ## The walks -/

open Mcts.Executor (isOurNodeValid markPath unmarkPath)

/-- The bit of a searcher. -/
def idMask (i : Fin 3) : BitVec 3 := 1#3 <<< i.val

theorem and_idMask : ∀ (i : Fin 3) (x : BitVec 3),
    x &&& idMask i ≠ 0 ↔ x.getLsbD i = true := by decide

theorem or_idMask : ∀ (i : Fin 3) (x : BitVec 3),
    x ||| idMask i = x ↔ x.getLsbD i = true := by decide

theorem or_idMask_and : ∀ (i : Fin 3) (x : BitVec 3), x.getLsbD i = false →
    (x ||| idMask i) &&& ~~~idMask i = x := by decide

theorem getLsbD_or_idMask : ∀ (i : Fin 3) (x : BitVec 3),
    (x ||| idMask i).getLsbD i = true := by decide

theorem isOurNodeValid_eq : isOurNodeValid (idMask i) ptr = ptr.tag.getLsbD i := by
  unfold isOurNodeValid PTreeNodePtr.tag
  cases ptr.pointer with
  | none => simp
  | some c =>
    rw [Option.isSome_some, Bool.true_and, if_pos rfl, Bool.eq_iff_iff, decide_eq_true_iff]
    exact and_idMask i ptr.int

/-- The bit is missing in the tag of the pointer to one node. -/
def Missing (i : Fin 3) (o : Option NodeRef) (c : NodeRef) (x y : BitVec 3) : Prop :=
  if o = some c then y = x ||| idMask i else x = y

/-- The bit is set in the tag of the pointer to one node, and may have to go. -/
def Spare (i : Fin 3) (o : Option NodeRef) (c : NodeRef) (x y : BitVec 3) : Prop :=
  if o = some c then x = y ||| idMask i else x = y

/-- The equation that was in doubt holds. -/
theorem TaggedBy.settle (hl : t.Linked) (h : t.TaggedBy own R) (hn : t.nodes v = some a)
    (hptr : t.childPtr v = .ok ptr) (heq : ptr.int = tagBelow own a)
    (hR : ∀ c x y, c ≠ v → R c x y → x = y) : t.Tagged own := by
  refine ⟨?_, ?_, h.bare, h.inner⟩
  · intro p b s c e hp hs hc
    by_cases hcv : c = v
    · subst hcv
      rw [hn] at hc
      cases hc
      rw [childPtr_child hl hn (hl.parent_eq hp hs hn) hp hs] at hptr
      cases hptr
      exact heq
    · exact hR c _ _ hcv (h.child hp hs hc)
  · intro w e hw hnone
    by_cases hwv : w = v
    · subst hwv
      rw [hn] at hw
      cases hw
      rw [childPtr_root hn hnone] at hptr
      cases hptr
      exact heq
    · exact hR w _ _ hwv (h.root hw hnone)

/-- The equation holds, except at one node where `X` does. -/
def InDoubt (X : BitVec 3 → BitVec 3 → Prop) (o : Option NodeRef) (c : NodeRef)
    (x y : BitVec 3) : Prop :=
  if o = some c then X x y else x = y

section Walk

variable {fuel : Nat} {X : BitVec 3 → BitVec 3 → Prop}

theorem InDoubt.eq (hcv : c ≠ v) (h : InDoubt X (some v) c x y) : x = y := by
  rwa [InDoubt, if_neg fun heq => hcv (Option.some.inj heq).symm] at h

section

variable (hX : ∀ {b s v int}, b.state = none → (b.child s).pointer = some v →
    X (b.child s).int int → X (tagBelow own b) (tagBelow own (b.setChild ⟨some v, int⟩ s)))
  (hl : t.Linked) (hh : t.Hung) (h : t.TaggedBy own (InDoubt X (some v)))
  (hn : t.nodes v = some a)

include hX hl hh h hn

/-- The tag is put right at a node, and is then in doubt at its parent. -/
theorem TaggedBy.shift (hptr : t.childPtr v = .ok ptr) (hdoubt : X ptr.int (tagBelow own a)) :
    ∃ t', t.setChildInt v (tagBelow own a) = .ok t' ∧ Retagged t t' ∧
      t'.TaggedBy own (InDoubt X a.parent) := by
  refine h.setChildInt hl hh hn ?_ ?_ ?_
  · rw [InDoubt, if_neg]
    intro hself
    exact absurd (hl.parent_lt hn hself) (lt_irrefl _)
  · intro c x y hcv hpar hR
    rw [InDoubt, if_neg hpar]
    exact hR.eq hcv
  · intro p b s x hpar hb hs hstate hR
    rw [childPtr_child hl hn hpar hb hs] at hptr
    cases hptr
    rw [InDoubt, if_pos hpar, hR.eq (hl.parent_lt hn hpar).ne]
    exact hX hstate hs hdoubt

/-- A walk to the root that stops where the tag is right, and otherwise puts it right
and goes on. -/
theorem walk_spec {walk : Nat → PTree → NodeRef → Except Abort PTree} {P : PTreeNode → Prop}
    (hP : ∀ {a}, a.state = none → P a)
    (hstep : ∀ {t v a ptr fuel}, t.TaggedBy own (InDoubt X (some v)) → t.nodes v = some a →
      P a → t.childPtr v = .ok ptr → ptr.tag = ptr.int → X ptr.int (tagBelow own a) →
      walk (fuel + 1) t v = .ok t ∧ ptr.int = tagBelow own a ∨
        ∀ t', t.setChildInt v (tagBelow own a) = .ok t' → Retagged t t' →
          walk (fuel + 1) t v = match a.parent with
            | none => .ok t'
            | some p => walk fuel t' p) (ha : P a) (hfuel : v < fuel) :
    ∃ t', walk fuel t v = .ok t' ∧ Retagged t t' ∧ t'.Tagged own := by
  induction fuel generalizing t v a with
  | zero => exact absurd hfuel v.not_lt_zero
  | succ fuel ih =>
    obtain ⟨ptr, hptr, hpoint, hdoubt⟩ := h.childPtr hl hh hn
    rw [InDoubt, if_pos rfl] at hdoubt
    obtain ⟨hwalk, heq⟩ | hwalk := hstep h hn ha hptr (tag_of_some hpoint) hdoubt
    · exact ⟨t, hwalk, .refl, h.settle hl hn hptr heq fun c x y hcv hR => hR.eq hcv⟩
    obtain ⟨t1, ht1, hre, htagged⟩ := h.shift hX hl hh hn hptr hdoubt
    rw [hwalk t1 ht1 hre]
    cases hparent : a.parent with
    | none =>
      rw [hparent] at htagged
      exact ⟨t1, rfl, hre, htagged⟩
    | some p =>
      rw [hparent] at htagged
      obtain ⟨b, s, hb, hs⟩ := hh.parent hn hparent
      obtain ⟨b1, hb1, -, hch⟩ := hre.links.symm.nodes hb
      have hinner : b1.state = none :=
        htagged.inner hb1 (Tagged.hasChild_of_child ((hch s).symm.trans hs))
      have hlt : p < fuel := (hl.parent_lt hn hparent).trans_le (Nat.lt_succ_iff.mp hfuel)
      obtain ⟨t', ht', hre', htagged'⟩ :=
        ih (hre.links.linked hl) (hre.links.hung hh) htagged hb1 (hP hinner) hlt
      exact ⟨t', ht', hre.trans hre', htagged'⟩

end

theorem markPath_spec (hl : t.Linked) (hh : t.Hung) (h : t.TaggedBy own (Missing i (some v)))
    (hn : t.nodes v = some a) (hfuel : v < fuel) :
    ∃ t', markPath (idMask i) fuel t v = .ok t' ∧ Retagged t t' ∧ t'.Tagged own := by
  refine walk_spec (P := fun _ => True) (fun {b s} v int hstate hs hx => ?_) hl hh h hn
    (fun _ => trivial) ?_ trivial hfuel
  · rw [← tagBelow_setChild (a := b) (s := s) rfl]
    exact tagBelow_setChild_or hstate ((tag_of_some hs).symm ▸ hx)
  intro t v a ptr fuel h hn _ hptr htag hmissing
  rw [markPath, hptr]
  dsimp only [bind, Except.bind]
  rw [isOurNodeValid_eq, htag]
  by_cases hbit : ptr.int.getLsbD i = true
  · -- the bit is there, so nothing was missing
    rw [(or_idMask i ptr.int).mpr hbit] at hmissing
    exact .inl ⟨if_pos hbit, hmissing.symm⟩
  · refine .inr fun t1 ht1 hre => ?_
    obtain ⟨a1, ha1, hpar, -⟩ := hre.links.symm.nodes hn
    rw [if_neg hbit, ← hmissing, ht1]
    dsimp only
    rw [node_eq_ok.mpr ha1, hpar]
    rfl

/-- The test of the walk: the bit is still needed below. -/
theorem TaggedBy.valid_eq (h : t.TaggedBy own R) (hn : t.nodes v = some a)
    (hfree : ∀ st, a.state = some st → (own st).getLsbD i = false) :
    (isOurNodeValid (idMask i) a.left || isOurNodeValid (idMask i) a.right) =
      (tagBelow own a).getLsbD i := by
  rw [isOurNodeValid_eq, isOurNodeValid_eq]
  cases hstate : a.state with
  | none =>
    rw [tagBelow_inner hstate, BitVec.getLsbD_or]
    rfl
  | some st =>
    have hnone := hasChild_eq_false.mp (h.leaf hn hstate)
    show ((a.child .left).tag.getLsbD _ || (a.child .right).tag.getLsbD _) = _
    rw [tagBelow_state hstate, hfree st hstate, tag_of_none (hnone .left),
      tag_of_none (hnone .right)]
    simp

theorem unmarkPath_spec (hl : t.Linked) (hh : t.Hung) (h : t.TaggedBy own (Spare i (some v)))
    (hn : t.nodes v = some a)
    (hfree : ∀ st, a.state = some st → (own st).getLsbD i = false) (hfuel : v < fuel) :
    ∃ t', unmarkPath (idMask i) fuel t v = .ok t' ∧ Retagged t t' ∧ t'.Tagged own := by
  refine walk_spec (P := fun a => ∀ st, a.state = some st → (own st).getLsbD i = false)
    (fun {b s} v int hstate hs hx => ?_) hl hh h hn
    (fun hnone st hst => by rw [hnone] at hst; cases hst) ?_ hfree hfuel
  · rw [← tagBelow_setChild (a := b) (s := s) rfl]
    exact tagBelow_setChild_or hstate ((tag_of_some hs).symm ▸ hx)
  intro t v a ptr fuel h hn hfree hptr htag hspare
  rw [unmarkPath, node_eq_ok.mpr hn]
  dsimp only [bind, Except.bind]
  rw [h.valid_eq hn hfree]
  by_cases hbit : (tagBelow own a).getLsbD i = true
  · -- some state below needs the bit
    rw [(or_idMask i _).mpr hbit] at hspare
    exact .inl ⟨if_pos hbit, hspare⟩
  · refine .inr fun t1 ht1 hre => ?_
    rw [if_neg hbit, hptr]
    dsimp only
    rw [isOurNodeValid_eq, htag, hspare, getLsbD_or_idMask,
      or_idMask_and i _ (Bool.eq_false_iff.mpr hbit), if_neg (by simp), ht1]
    rfl

end Walk

/-! ## What a tag says -/

/-- The node is below another one, or is it. -/
def Below (t : PTree) (c n : NodeRef) : Prop := ∃ path, Climb t n path ∧ c ∈ path

theorem exists_climb (hl : t.Linked) (hh : t.Hung) (hn : t.nodes v = some a) :
    ∃ path, Climb t v path := by
  induction v using Nat.strong_induction_on generalizing a with
  | _ v ih =>
    cases hparent : a.parent with
    | none => exact ⟨_, .root hn hparent⟩
    | some p =>
      obtain ⟨b, s, hb, -⟩ := hh.parent hn hparent
      obtain ⟨path, hpath⟩ := ih p (hl.parent_lt hn hparent) hb
      exact ⟨_, .up hn hparent hpath⟩

namespace Tagged

variable (h : t.Tagged own)
include h

/-- A bit goes up from a child to its parent. -/
theorem getLsbD_parent (hp : t.nodes p = some b)
    (hs : (b.child s).pointer = some c) (hc : t.nodes c = some a)
    (hbit : (tagBelow own a).getLsbD i = true) : (tagBelow own b).getLsbD i = true := by
  rw [← h.child_tag hp hs hc] at hbit
  rw [tagBelow_inner (h.inner hp (hasChild_of_child hs)), BitVec.getLsbD_or, Bool.or_eq_true]
  cases s with
  | left => exact .inl hbit
  | right => exact .inr hbit

theorem getLsbD_climb {path : List NodeRef} (hh : t.Hung) (hc : Climb t n path)
    (hn : t.nodes n = some a)
    (hbit : (tagBelow own a).getLsbD i = true) (hv : v ∈ path) (hb : t.nodes v = some b) :
    (tagBelow own b).getLsbD i = true := by
  induction hc generalizing a with
  | root hn' hparent =>
    cases List.mem_singleton.mp hv
    rw [hn] at hb
    cases hb
    exact hbit
  | up hn' hparent hclimb ih =>
    rcases List.mem_cons.mp hv with rfl | hv
    · rw [hn] at hb
      cases hb
      exact hbit
    · rw [hn] at hn'
      cases hn'
      obtain ⟨d, s, hd, hs⟩ := hh.parent hn hparent
      exact ih hd (h.getLsbD_parent hd hs hn hbit) hv

/-- A bit of the tag is there because of a state below. -/
theorem exists_below (hl : t.Linked) (hh : t.Hung) (hv : t.nodes v = some a)
    (hbit : (tagBelow own a).getLsbD i = true) :
    ∃ n e st, t.nodes n = some e ∧ e.state = some st ∧ (own st).getLsbD i = true ∧ t.Below v n := by
  -- children have larger numbers, and all numbers are below the next one
  induction hk : t.nextNode - v using Nat.strong_induction_on generalizing v a with
  | _ k ih =>
    cases hstate : a.state with
    | some st =>
      rw [tagBelow_state hstate] at hbit
      obtain ⟨path, hpath⟩ := exists_climb hl hh hv
      exact ⟨v, a, st, hv, hstate, hbit, path, hpath, hpath.start_mem⟩
    | none =>
      have hchild : ∃ s, (a.child s).tag.getLsbD i = true := by
        rw [tagBelow_inner hstate, BitVec.getLsbD_or, Bool.or_eq_true] at hbit
        rcases hbit with hbit | hbit
        · exact ⟨.left, hbit⟩
        · exact ⟨.right, hbit⟩
      obtain ⟨s, hs⟩ := hchild
      cases hptr : (a.child s).pointer with
      | none =>
        rw [tag_of_none hptr] at hs
        simp at hs
      | some c =>
        obtain ⟨b, hb, hpar⟩ := hl.child hv hptr
        rw [h.child_tag hv hptr hb] at hs
        have hlt : t.nextNode - c < k := by
          rw [← hk]
          exact Nat.sub_lt_sub_left ((hl.child_gt hv hptr).trans (hl.bound hb))
            (hl.child_gt hv hptr)
        obtain ⟨n, e, st, hn, he, hown, path, hpath, hmem⟩ := ih _ hlt hb hs rfl
        exact ⟨n, e, st, hn, he, hown, path, hpath, (hpath.next hl hmem hb).1 v hpar⟩

theorem getLsbD_iff (hl : t.Linked) (hh : t.Hung) (hv : t.nodes v = some a) :
    (tagBelow own a).getLsbD i = true ↔
      ∃ n e st, t.nodes n = some e ∧ e.state = some st ∧ (own st).getLsbD i = true ∧
        t.Below v n := by
  refine ⟨h.exists_below hl hh hv, ?_⟩
  rintro ⟨n, e, st, hn, he, hown, path, hpath, hmem⟩
  refine h.getLsbD_climb hh hpath hn ?_ hmem hv
  rw [tagBelow_state he]
  exact hown

end Tagged

end PTree

end VitalSE
