import VitalSE.Core.PTree
import VitalSE.Lib.Runs

/-!
# The links of the process tree

A node of the process tree is made after its parent, and its number is larger;
taking a node out of the middle of a path keeps this, so the walks to the root
and down from it are bounded by the numbers. `Linked` says that and that a child
points back to its parent. It holds after any operation that returns. `Hung` says
that a node is where its parent, or the tree, points to; it holds as long as only
leaves are forked, and then the operations return.

`remove` is a sequence of steps that either cut off a leaf or put the only child
of a node in the place of the node (`Surgery`). What the steps keep, `remove`
keeps, with and without compression.
-/

/-- One of the two children of a node. -/
inductive LinkedTree.Side
  | left
  | right
deriving DecidableEq

namespace VitalSE

open Except (bind_eq_ok ok_bind)
open LinkedTree (Side)

variable {tag : BitVec 3} {e a : PTreeNode} {path : List NodeRef} {I : PTree → Prop}

namespace PTreeNode

/-- The pointer to a child. -/
def child (a : PTreeNode) : Side → PTreeNodePtr
  | .left => a.left
  | .right => a.right

/-- The node with another child. -/
def setChild (a : PTreeNode) (ptr : PTreeNodePtr) : Side → PTreeNode
  | .left => { a with left := ptr }
  | .right => { a with right := ptr }

variable {ptr : PTreeNodePtr} {s s' : Side}

@[simp] theorem child_setChild : (a.setChild ptr s).child s = ptr := by
  cases s <;> rfl

theorem child_setChild_of_ne (h : s' ≠ s) : (a.setChild ptr s).child s' = a.child s' := by
  cases s <;> cases s' <;> first | rfl | exact absurd rfl h

@[simp] theorem parent_setChild : (a.setChild ptr s).parent = a.parent := by
  cases s <;> rfl

@[simp] theorem state_setChild : (a.setChild ptr s).state = a.state := by
  cases s <;> rfl

theorem hasChild_eq_false : a.hasChild = false ↔ ∀ s, (a.child s).pointer = none := by
  unfold hasChild
  rw [Bool.or_eq_false_iff, Option.isSome_eq_false_iff, Option.isSome_eq_false_iff,
    Option.isNone_iff_eq_none, Option.isNone_iff_eq_none]
  constructor
  · rintro ⟨hl, hr⟩ s
    cases s
    · exact hl
    · exact hr
  · intro h
    exact ⟨h .left, h .right⟩

theorem hasChild_iff : a.hasChild = true ↔ ∃ s c, (a.child s).pointer = some c := by
  rw [← Bool.not_eq_false, hasChild_eq_false]
  simp only [not_forall, Option.ne_none_iff_exists']

end PTreeNode

namespace PTree

open PTreeNode (parent_setChild child_setChild child_setChild_of_ne)

variable {t t' : PTree} {n p c v : NodeRef} {b : PTreeNode} {s : Side} {a' : PTreeNode}
  {fuel : Nat} {compressProcessTree : Bool} {initialState l r : StateRef}
  {J : PTree → NodeRef → Prop}

/-! ## Reading and writing nodes -/

theorem node_eq_ok : t.node n = .ok a ↔ t.nodes n = some a := by
  unfold node
  cases t.nodes n with
  | none => simp
  | some b => simp

@[simp] theorem nodes_setNode_self : (t.setNode n a).nodes n = some a :=
  Function.update_self ..

theorem nodes_setNode_of_ne (h : c ≠ n) : (t.setNode n a).nodes c = t.nodes c :=
  Function.update_of_ne h ..

theorem nodes_setNode_cases (h : (t.setNode n b).nodes v = some a) :
    v = n ∧ a = b ∨ v ≠ n ∧ t.nodes v = some a := by
  by_cases hv : v = n
  · subst hv
    rw [nodes_setNode_self] at h
    exact .inl ⟨rfl, (Option.some.inj h).symm⟩
  · rw [nodes_setNode_of_ne hv] at h
    exact .inr ⟨hv, h⟩

@[simp] theorem nodes_delete_self : (t.delete n).nodes n = none := Function.update_self ..

theorem nodes_delete_of_ne (h : c ≠ n) : (t.delete n).nodes c = t.nodes c :=
  Function.update_of_ne h ..

theorem nodes_setNode_delete (h : p ≠ n) : ((t.setNode p a).delete n).nodes p = some a := by
  rw [nodes_delete_of_ne h, nodes_setNode_self]

/-! ## The links -/

/-- Numbers grow downwards, and children point back to their parent. -/
structure Linked (t : PTree) : Prop where
  bound : ∀ {n a}, t.nodes n = some a → n < t.nextNode
  parent_lt : ∀ {n a p}, t.nodes n = some a → a.parent = some p → p < n
  child : ∀ {n a s c}, t.nodes n = some a → (a.child s).pointer = some c →
    ∃ b, t.nodes c = some b ∧ b.parent = some n
  distinct : ∀ {n a s s' c}, t.nodes n = some a → (a.child s).pointer = some c →
    (a.child s').pointer = some c → s = s'

/-- A node is where its parent, or the tree, points to. -/
structure Hung (t : PTree) : Prop where
  root : ∀ {n a}, t.nodes n = some a → a.parent = none → t.root.pointer = some n
  parent : ∀ {n a p}, t.nodes n = some a → a.parent = some p →
    ∃ b s, t.nodes p = some b ∧ (b.child s).pointer = some n

namespace Linked

theorem child_gt (h : t.Linked) (hn : t.nodes n = some a) (hc : (a.child s).pointer = some c) :
    n < c := by
  obtain ⟨b, hb, hp⟩ := h.child hn hc
  exact h.parent_lt hb hp

theorem parent_eq (h : t.Linked) (hn : t.nodes n = some a)
    (hc : (a.child s).pointer = some c) (hb : t.nodes c = some b) : b.parent = some n := by
  obtain ⟨b', hb', hp⟩ := h.child hn hc
  rw [hb] at hb'
  cases hb'
  exact hp

end Linked

/-! ## Taking nodes out -/

/-- A leaf is cut off. -/
structure Dropped (t t' : PTree) (n : NodeRef) (a : PTreeNode) : Prop where
  present : t.nodes n = some a
  leaf : a.hasChild = false
  gone : t'.nodes n = none
  parent : ∀ {p}, a.parent = some p → ∃ b s, t.nodes p = some b ∧
    (b.child s).pointer = some n ∧ t'.nodes p = some (b.setChild .null s)
  rest : ∀ {v}, v ≠ n → a.parent ≠ some v → t'.nodes v = t.nodes v
  root : t'.root = t.root
  next : t'.nextNode = t.nextNode

/-- The only child of a node takes the place of the node. -/
structure Spliced (t t' : PTree) (n : NodeRef) (a : PTreeNode) (s : Side) (c : NodeRef)
    (b : PTreeNode) : Prop where
  present : t.nodes n = some a
  child : (a.child s).pointer = some c
  only : ∀ s' ≠ s, (a.child s').pointer = none
  below : t.nodes c = some b
  gone : t'.nodes n = none
  moved : t'.nodes c = some { b with parent := a.parent }
  parent : ∀ {p}, a.parent = some p → ∃ d s', t.nodes p = some d ∧
    (d.child s').pointer = some n ∧ t'.nodes p = some (d.setChild (a.child s) s')
  rest : ∀ {v}, v ≠ n → v ≠ c → a.parent ≠ some v → t'.nodes v = t.nodes v
  root : t'.root = if a.parent = none then a.child s else t.root
  next : t'.nextNode = t.nextNode

/-- Two leaves are put below a node. -/
structure Attached (t t' : PTree) (n : NodeRef) (a : PTreeNode) (tag : BitVec 3)
    (leftState rightState : StateRef) : Prop where
  present : t.nodes n = some a
  forked : t'.nodes n = some { a with
    state := none
    left := ⟨some t.nextNode, 0⟩
    right := ⟨some (t.nextNode + 1), tag⟩ }
  left : t'.nodes t.nextNode = some (.create (some n) leftState)
  right : t'.nodes (t.nextNode + 1) = some (.create (some n) rightState)
  rest : ∀ {v}, v ≠ n → v ≠ t.nextNode → v ≠ t.nextNode + 1 → t'.nodes v = t.nodes v
  root : t'.root = t.root
  next : t'.nextNode = t.nextNode + 2

/-- The steps of `remove`. -/
inductive Surgery (t t' : PTree) : Prop
  | drop {n : NodeRef} {a : PTreeNode} (h : Dropped t t' n a)
  | splice {n c : NodeRef} {a b : PTreeNode} {s : Side} (h : Spliced t t' n a s c b)

/-- The nodes after a leaf was cut off: the parent and the others. -/
theorem Dropped.cases (hd : Dropped t t' n a) (hv : t'.nodes v = some a') : v ≠ n ∧
      ((∃ b s, a.parent = some v ∧ t.nodes v = some b ∧ (b.child s).pointer = some n ∧
        a' = b.setChild .null s) ∨ (a.parent ≠ some v ∧ t.nodes v = some a')) := by
  have hvn : v ≠ n := by
    rintro rfl
    rw [hd.gone] at hv
    cases hv
  refine ⟨hvn, ?_⟩
  by_cases hvp : a.parent = some v
  · obtain ⟨b, s, hb, hs, hb'⟩ := hd.parent hvp
    rw [hb'] at hv
    cases hv
    exact .inl ⟨b, s, hvp, hb, hs, rfl⟩
  · rw [hd.rest hvn hvp] at hv
    exact .inr ⟨hvp, hv⟩

/-- The nodes after a splice: the child, the parent and the others. -/
theorem Spliced.cases (hs : Spliced t t' n a s c b) (hv : t'.nodes v = some a') :
    v ≠ n ∧ (v = c ∧ a' = { b with parent := a.parent } ∨
      (∃ d s', a.parent = some v ∧ t.nodes v = some d ∧ (d.child s').pointer = some n ∧
        a' = d.setChild (a.child s) s') ∨
      (v ≠ c ∧ a.parent ≠ some v ∧ t.nodes v = some a')) := by
  have hvn : v ≠ n := by
    rintro rfl
    rw [hs.gone] at hv
    cases hv
  refine ⟨hvn, ?_⟩
  by_cases hvc : v = c
  · subst hvc
    rw [hs.moved] at hv
    cases hv
    exact .inl ⟨rfl, rfl⟩
  by_cases hvp : a.parent = some v
  · obtain ⟨d, s', hd, hds, hd'⟩ := hs.parent hvp
    rw [hd'] at hv
    cases hv
    exact .inr (.inl ⟨d, s', hvp, hd, hds, rfl⟩)
  · rw [hs.rest hvn hvc hvp] at hv
    exact .inr (.inr ⟨hvc, hvp, hv⟩)

/-- The nodes after a fork: the node, its leaves and the others. -/
theorem Attached.cases (h : Attached t t' n a tag l r) (hv : t'.nodes v = some a') :
    (v = n ∧ a' = { a with
      state := none
      left := ⟨some t.nextNode, 0⟩
      right := ⟨some (t.nextNode + 1), tag⟩ }) ∨
    (∃ st, a' = .create (some n) st ∧ t.nextNode ≤ v ∧ v < t.nextNode + 2 ∧
      (v = t.nextNode ∧ st = l ∨ v = t.nextNode + 1 ∧ st = r)) ∨
    (v ≠ n ∧ t.nodes v = some a') := by
  by_cases hvn : v = n
  · subst hvn
    rw [h.forked] at hv
    exact .inl ⟨rfl, (Option.some.inj hv).symm⟩
  by_cases hvl : v = t.nextNode
  · subst hvl
    rw [h.left] at hv
    exact .inr (.inl ⟨l, (Option.some.inj hv).symm, le_rfl,
      Nat.lt_add_of_pos_right Nat.two_pos, .inl ⟨rfl, rfl⟩⟩)
  by_cases hvr : v = t.nextNode + 1
  · subst hvr
    rw [h.right] at hv
    exact .inr (.inl ⟨r, (Option.some.inj hv).symm, Nat.le_succ _, Nat.lt_succ_self _,
      .inr ⟨rfl, rfl⟩⟩)
  · rw [h.rest hvn hvl hvr] at hv
    exact .inr (.inr ⟨hvn, hv⟩)

theorem Attached.old (h : Attached t t' n a tag l r) (hl : t.Linked) (hvn : v ≠ n)
    (hv : t.nodes v = some e) : t'.nodes v = some e := by
  have hlt := hl.bound hv
  rw [h.rest hvn hlt.ne (hlt.trans (Nat.lt_succ_self _)).ne, hv]

/-- The other nodes stay, with their states and parents. -/
theorem Dropped.keeps (hd : Dropped t t' n a) (hvn : v ≠ n) (hv : t.nodes v = some e) :
    ∃ e', t'.nodes v = some e' ∧ e'.state = e.state ∧ e'.parent = e.parent := by
  by_cases hvp : a.parent = some v
  · obtain ⟨b, s, hb, -, hb'⟩ := hd.parent hvp
    rw [hv] at hb
    cases hb
    exact ⟨_, hb', PTreeNode.state_setChild, parent_setChild⟩
  · exact ⟨e, by rw [hd.rest hvn hvp, hv], rfl, rfl⟩

theorem Spliced.keeps (hs : Spliced t t' n a s c b) (hvn : v ≠ n) (hv : t.nodes v = some e) :
    ∃ e', t'.nodes v = some e' ∧ e'.state = e.state ∧ (v ≠ c → e'.parent = e.parent) := by
  by_cases hvc : v = c
  · subst hvc
    rw [hs.below] at hv
    cases hv
    exact ⟨_, hs.moved, rfl, fun hne => absurd rfl hne⟩
  by_cases hvp : a.parent = some v
  · obtain ⟨d, s', hd, -, hd'⟩ := hs.parent hvp
    rw [hv] at hd
    cases hd
    exact ⟨_, hd', PTreeNode.state_setChild, fun _ => parent_setChild⟩
  · exact ⟨e, by rw [hs.rest hvn hvc hvp, hv], rfl, fun _ => rfl⟩

namespace Linked

/-- Nothing is moved, and what is pointed to stays. -/
theorem shrink (h : t.Linked) (hnext : t'.nextNode = t.nextNode)
    (hnodes : ∀ v a', t'.nodes v = some a' → ∃ a, t.nodes v = some a ∧
      a'.parent = a.parent ∧ ∀ s c, (a'.child s).pointer = some c →
        (a.child s).pointer = some c ∧ ∃ b', t'.nodes c = some b') : t'.Linked where
  bound := by
    intro v a' hv
    obtain ⟨a, ha, -⟩ := hnodes v a' hv
    rw [hnext]
    exact h.bound ha
  parent_lt := by
    intro v a' q hv hq
    obtain ⟨a, ha, hpar, -⟩ := hnodes v a' hv
    exact h.parent_lt ha (hpar ▸ hq)
  child := by
    intro v a' s c hv hc
    obtain ⟨a, ha, -, hchild⟩ := hnodes v a' hv
    obtain ⟨hac, b', hb'⟩ := hchild s c hc
    obtain ⟨b, hb, hpar, -⟩ := hnodes c b' hb'
    exact ⟨b', hb', hpar.trans (h.parent_eq ha hac hb)⟩
  distinct := by
    intro v a' s s' c hv hc hc'
    obtain ⟨a, ha, -, hchild⟩ := hnodes v a' hv
    exact h.distinct ha (hchild s c hc).1 (hchild s' c hc').1

theorem dropped (h : t.Linked) (hd : Dropped t t' n a) : t'.Linked := by
  have hpresent : ∀ c bc, c ≠ n → t.nodes c = some bc → ∃ b', t'.nodes c = some b' := by
    intro c bc hcn hc
    obtain ⟨b', hb', -⟩ := hd.keeps hcn hc
    exact ⟨b', hb'⟩
  refine h.shrink hd.next fun v a' hv => ?_
  obtain ⟨-, ⟨b, s, -, hb, hs, rfl⟩ | ⟨hvp, hv⟩⟩ := hd.cases hv
  · refine ⟨b, hb, parent_setChild, fun s' c hc => ?_⟩
    have hss : s' ≠ s := by
      rintro rfl
      rw [child_setChild] at hc
      cases hc
    rw [child_setChild_of_ne hss] at hc
    obtain ⟨bc, hbc, -⟩ := h.child hb hc
    refine ⟨hc, hpresent c bc ?_ hbc⟩
    rintro rfl
    exact hss (h.distinct hb hc hs)
  · refine ⟨a', hv, rfl, fun s' c hc => ?_⟩
    obtain ⟨bc, hbc, hpar⟩ := h.child hv hc
    refine ⟨hc, hpresent c bc ?_ hbc⟩
    rintro rfl
    rw [hd.present] at hbc
    cases hbc
    exact hvp hpar

theorem spliced (h : t.Linked) (hs : Spliced t t' n a s c b) : t'.Linked := by
  have hnc : n < c := h.child_gt hs.present hs.child
  have hcpar : b.parent = some n := h.parent_eq hs.present hs.child hs.below
  have hpn : ∀ {p}, a.parent = some p → p < n := h.parent_lt hs.present
  -- a child of a node that is neither taken out nor its parent on this side
  have hkeep : ∀ {v d s' x}, v ≠ n → t.nodes v = some d → (d.child s').pointer = some x →
      x ≠ n → ∃ d', t'.nodes x = some d' ∧ d'.parent = some v := by
    intro v d s' x hvn hv hx hxn
    obtain ⟨e, he, hpar⟩ := h.child hv hx
    have hxc : x ≠ c := by
      rintro rfl
      rw [hs.below] at he
      cases he
      rw [hcpar] at hpar
      cases hpar
      exact hvn rfl
    obtain ⟨d', hd', -, hpar'⟩ := hs.keeps hxn he
    exact ⟨d', hd', (hpar' hxc).trans hpar⟩
  refine ⟨?_, ?_, ?_, ?_⟩
  · intro v a' hv
    rw [hs.next]
    obtain ⟨-, ⟨rfl, -⟩ | ⟨d, s', -, hd, -⟩ | ⟨-, -, hv⟩⟩ := hs.cases hv
    · exact h.bound hs.below
    · exact h.bound hd
    · exact h.bound hv
  · intro v a' q hv hq
    obtain ⟨-, ⟨rfl, rfl⟩ | ⟨d, s', -, hd, -, rfl⟩ | ⟨-, -, hv⟩⟩ := hs.cases hv
    · exact (hpn hq).trans hnc
    · exact h.parent_lt hd (parent_setChild ▸ hq)
    · exact h.parent_lt hv hq
  · intro v a' s1 x hv hx
    obtain ⟨hvn, ⟨rfl, rfl⟩ | ⟨d, s', hvp, hd, hds, rfl⟩ | ⟨-, hvp, hv⟩⟩ := hs.cases hv
    · refine hkeep hvn hs.below hx ?_
      exact (hnc.trans (h.child_gt hs.below hx)).ne'
    · by_cases hss : s1 = s'
      · subst hss
        rw [child_setChild, hs.child] at hx
        cases hx
        exact ⟨_, hs.moved, hvp⟩
      · rw [child_setChild_of_ne hss] at hx
        refine hkeep hvn hd hx ?_
        rintro rfl
        exact hss (h.distinct hd hx hds)
    · refine hkeep hvn hv hx ?_
      rintro rfl
      exact hvp (h.parent_eq hv hx hs.present)
  · intro v a' s1 s2 x hv hx hx'
    obtain ⟨hvn, ⟨rfl, rfl⟩ | ⟨d, s', hvp, hd, hds, rfl⟩ | ⟨-, hvp, hv⟩⟩ := hs.cases hv
    · exact h.distinct hs.below hx hx'
    · -- the child was below the node that is taken out, so it is on one side only
      have hcother : ∀ {s3}, s3 ≠ s' → (d.child s3).pointer ≠ some c := by
        intro s3 _ hc
        have := h.parent_eq hd hc hs.below
        rw [hcpar] at this
        cases this
        exact hvn rfl
      by_cases h1 : s1 = s'
      · by_cases h2 : s2 = s'
        · rw [h1, h2]
        · rw [h1, child_setChild, hs.child] at hx
          cases hx
          rw [child_setChild_of_ne h2] at hx'
          exact absurd hx' (hcother h2)
      · rw [child_setChild_of_ne h1] at hx
        by_cases h2 : s2 = s'
        · rw [h2, child_setChild, hs.child] at hx'
          cases hx'
          exact absurd hx (hcother h1)
        · rw [child_setChild_of_ne h2] at hx'
          exact h.distinct hd hx hx'
    · exact h.distinct hv hx hx'

theorem surgeries (h : t.Linked) (hs : Relation.ReflTransGen Surgery t t') : t'.Linked := by
  induction hs with
  | refl => exact h
  | tail _ hstep ih =>
    cases hstep with
    | drop hd => exact ih.dropped hd
    | splice hs => exact ih.spliced hs

theorem child_create {parent : Option NodeRef} :
    ((PTreeNode.create parent l).child s).pointer = none := by
  cases s <;> rfl

theorem attached (h : t.Linked) (ha : Attached t t' n a tag l r) : t'.Linked := by
  have hlt : n < t.nextNode := h.bound ha.present
  refine ⟨?_, ?_, ?_, ?_⟩
  · intro v a' hv
    rw [ha.next]
    obtain ⟨rfl, -⟩ | ⟨st, -, -, hvlt, -⟩ | ⟨-, hv⟩ := ha.cases hv
    · exact hlt.trans (Nat.lt_add_of_pos_right Nat.two_pos)
    · exact hvlt
    · exact (h.bound hv).trans (Nat.lt_add_of_pos_right Nat.two_pos)
  · intro v a' q hv hq
    obtain ⟨rfl, rfl⟩ | ⟨st, rfl, hge, -⟩ | ⟨-, hv⟩ := ha.cases hv
    · exact h.parent_lt ha.present hq
    · cases hq
      exact hlt.trans_le hge
    · exact h.parent_lt hv hq
  · intro v a' s x hv hx
    obtain ⟨rfl, rfl⟩ | ⟨st, rfl, -⟩ | ⟨-, hv⟩ := ha.cases hv
    · cases s with
      | left =>
        cases hx
        exact ⟨_, ha.left, rfl⟩
      | right =>
        cases hx
        exact ⟨_, ha.right, rfl⟩
    · rw [child_create] at hx
      cases hx
    · obtain ⟨b, hb, hpar⟩ := h.child hv hx
      by_cases hxn : x = n
      · subst hxn
        rw [ha.present] at hb
        cases hb
        exact ⟨_, ha.forked, hpar⟩
      · exact ⟨b, ha.old h hxn hb, hpar⟩
  · intro v a' s s' x hv hx hx'
    obtain ⟨rfl, rfl⟩ | ⟨st, rfl, -⟩ | ⟨-, hv⟩ := ha.cases hv
    · have hne : t.nextNode ≠ t.nextNode + 1 := (Nat.lt_succ_self _).ne
      cases s <;> cases s' <;> cases hx
      · rfl
      · exact absurd (Option.some.inj hx').symm hne
      · exact absurd (Option.some.inj hx') hne
      · rfl
    · rw [child_create] at hx
      cases hx
    · exact h.distinct hv hx hx'

end Linked

namespace Hung

/-- Below a node that has children already they would be lost, so the node is a
leaf. -/
theorem attached (hl : t.Linked) (h : t.Hung) (ha : Attached t t' n a tag l r)
    (hleaf : a.hasChild = false) : t'.Hung := by
  -- who was hung up is hung up where it was
  have hkeep : ∀ {v e q}, t.nodes v = some e → e.parent = some q →
      ∃ b s, t'.nodes q = some b ∧ (b.child s).pointer = some v := by
    intro v e q hv hq
    obtain ⟨b, s, hb, hs⟩ := h.parent hv hq
    have hqn : q ≠ n := by
      rintro rfl
      rw [ha.present] at hb
      cases hb
      rw [PTreeNode.hasChild_eq_false.mp hleaf s] at hs
      cases hs
    exact ⟨b, s, ha.old hl hqn hb, hs⟩
  refine ⟨?_, ?_⟩
  · intro v a' hv hroot
    rw [ha.root]
    obtain ⟨rfl, rfl⟩ | ⟨st, rfl, -⟩ | ⟨-, hv⟩ := ha.cases hv
    · exact h.root ha.present hroot
    · cases hroot
    · exact h.root hv hroot
  · intro v a' q hv hq
    obtain ⟨rfl, rfl⟩ | ⟨st, rfl, -, -, ⟨rfl, -⟩ | ⟨rfl, -⟩⟩ | ⟨-, hv⟩ := ha.cases hv
    · exact hkeep ha.present hq
    · cases hq
      exact ⟨_, .left, ha.forked, rfl⟩
    · cases hq
      exact ⟨_, .right, ha.forked, rfl⟩
    · exact hkeep hv hq

theorem dropped (h : t.Hung) (hd : Dropped t t' n a) : t'.Hung := by
  refine ⟨?_, ?_⟩
  · intro v a' hv hroot
    rw [hd.root]
    obtain ⟨-, ⟨b, s, -, hb, -, rfl⟩ | ⟨-, hv⟩⟩ := hd.cases hv
    · exact h.root hb (parent_setChild ▸ hroot)
    · exact h.root hv hroot
  · intro v a' q hv hq
    obtain ⟨e, he, hpar, hvn⟩ : ∃ e, t.nodes v = some e ∧ e.parent = some q ∧ v ≠ n := by
      obtain ⟨hvn, ⟨b, s, -, hb, -, rfl⟩ | ⟨-, hv⟩⟩ := hd.cases hv
      · exact ⟨b, hb, parent_setChild ▸ hq, hvn⟩
      · exact ⟨a', hv, hq, hvn⟩
    obtain ⟨d, s', hd', hs'⟩ := h.parent he hpar
    have hqn : q ≠ n := by
      rintro rfl
      rw [hd.present] at hd'
      cases hd'
      rw [PTreeNode.hasChild_eq_false.mp hd.leaf s'] at hs'
      cases hs'
    by_cases hqp : a.parent = some q
    · obtain ⟨b, s, hb, hs, hb'⟩ := hd.parent hqp
      rw [hd'] at hb
      cases hb
      refine ⟨_, s', hb', ?_⟩
      rw [child_setChild_of_ne, hs']
      rintro rfl
      rw [hs] at hs'
      cases hs'
      exact hvn rfl
    · exact ⟨d, s', by rw [hd.rest hqn hqp, hd'], hs'⟩

theorem spliced (h : t.Hung) (hs : Spliced t t' n a s c b) : t'.Hung := by
  -- where a node that is not moved was before
  have hwas : ∀ {v a'}, t'.nodes v = some a' → v ≠ c →
      ∃ e, t.nodes v = some e ∧ e.parent = a'.parent ∧ v ≠ n := by
    intro v a' hv hvc
    obtain ⟨hvn, ⟨rfl, -⟩ | ⟨d, s', -, hd, -, rfl⟩ | ⟨-, -, hv⟩⟩ := hs.cases hv
    · exact absurd rfl hvc
    · exact ⟨d, hd, parent_setChild.symm, hvn⟩
    · exact ⟨a', hv, rfl, hvn⟩
  refine ⟨?_, ?_⟩
  · intro v a' hv hroot
    rw [hs.root]
    by_cases hvc : v = c
    · subst hvc
      rw [hs.moved] at hv
      cases hv
      rw [if_pos hroot]
      exact hs.child
    · obtain ⟨e, he, hpar, hvn⟩ := hwas hv hvc
      have hv0 := h.root he (hpar.trans hroot)
      rw [if_neg, hv0]
      intro hnone
      have hn0 := h.root hs.present hnone
      rw [hv0] at hn0
      exact hvn (Option.some.inj hn0)
  · intro v a' q hv hq
    by_cases hvc : v = c
    · subst hvc
      rw [hs.moved] at hv
      cases hv
      obtain ⟨d, s', -, -, hd'⟩ := hs.parent hq
      exact ⟨_, s', hd', by rw [child_setChild, hs.child]⟩
    obtain ⟨e, he, hpar, hvn⟩ := hwas hv hvc
    obtain ⟨d, s', hd, hs'⟩ := h.parent he (hpar.trans hq)
    by_cases hqc : q = c
    · subst hqc
      rw [hs.below] at hd
      cases hd
      exact ⟨_, s', hs.moved, hs'⟩
    have hqn : q ≠ n := by
      rintro rfl
      rw [hs.present] at hd
      cases hd
      by_cases hss : s' = s
      · rw [hss, hs.child] at hs'
        exact hvc (Option.some.inj hs').symm
      · rw [hs.only s' hss] at hs'
        cases hs'
    by_cases hqp : a.parent = some q
    · obtain ⟨d1, s1, hd1, hds, hd'⟩ := hs.parent hqp
      rw [hd] at hd1
      cases hd1
      refine ⟨_, s', hd', ?_⟩
      rw [child_setChild_of_ne, hs']
      rintro rfl
      rw [hds] at hs'
      exact hvn (Option.some.inj hs').symm
    · exact ⟨d, s', by rw [hs.rest hqn hqc hqp, hd], hs'⟩

theorem surgeries (h : t.Hung) (hs : Relation.ReflTransGen Surgery t t') : t'.Hung := by
  induction hs with
  | refl => exact h
  | tail _ hstep ih =>
    cases hstep with
    | drop hd => exact ih.dropped hd
    | splice hs => exact ih.spliced hs

end Hung

/-- A step changes the links of the nodes that stay, and nothing else. -/
theorem Surgery.was (hs : Surgery t t') (hv : t'.nodes v = some a') :
    ∃ a q l r, t.nodes v = some a ∧
      a' = { a with parent := q, left := l, right := r } := by
  cases hs with
  | drop hd =>
    obtain ⟨-, ⟨b, s, -, hb, -, rfl⟩ | ⟨-, hv⟩⟩ := hd.cases hv
    · cases s with
      | left => exact ⟨b, b.parent, .null, b.right, hb, rfl⟩
      | right => exact ⟨b, b.parent, b.left, .null, hb, rfl⟩
    · exact ⟨a', a'.parent, a'.left, a'.right, hv, rfl⟩
  | @splice n c a b s hs =>
    obtain ⟨-, ⟨rfl, rfl⟩ | ⟨d, s', -, hd, -, rfl⟩ | ⟨-, -, hv⟩⟩ := hs.cases hv
    · exact ⟨b, _, b.left, b.right, hs.below, rfl⟩
    · cases s' with
      | left => exact ⟨d, d.parent, _, d.right, hd, rfl⟩
      | right => exact ⟨d, d.parent, d.left, _, hd, rfl⟩
    · exact ⟨a', a'.parent, a'.left, a'.right, hv, rfl⟩

theorem surgeries_was (hs : Relation.ReflTransGen Surgery t t')
    (hv : t'.nodes v = some a') : ∃ a q l r, t.nodes v = some a ∧
      a' = { a with parent := q, left := l, right := r } := by
  induction hs generalizing a' with
  | refl => exact ⟨a', a'.parent, a'.left, a'.right, hv, rfl⟩
  | tail _ hstep ih =>
    obtain ⟨b, q, l, r, hb, rfl⟩ := hstep.was hv
    obtain ⟨a, _, _, _, ha, rfl⟩ := ih hb
    exact ⟨a, q, l, r, ha, rfl⟩

theorem create_nodes (hv : (create initialState).nodes v = some a') :
    v = 0 ∧ a' = .create none initialState := by
  replace hv : Function.update (fun _ => none) 0
    (some (PTreeNode.create none initialState)) v = some a' := hv
  by_cases h : v = 0
  · subst h
    rw [Function.update_self] at hv
    exact ⟨rfl, (Option.some.inj hv).symm⟩
  · rw [Function.update_of_ne h] at hv
    cases hv

theorem linked_create : (create initialState).Linked := by
  refine ⟨?_, ?_, ?_, ?_⟩
  · intro v a' hv
    obtain ⟨rfl, -⟩ := create_nodes hv
    exact Nat.one_pos
  · intro v a' q hv hq
    obtain ⟨-, rfl⟩ := create_nodes hv
    cases hq
  · intro v a' s x hv hx
    obtain ⟨-, rfl⟩ := create_nodes hv
    rw [Linked.child_create] at hx
    cases hx
  · intro v a' s s' x hv hx
    obtain ⟨-, rfl⟩ := create_nodes hv
    rw [Linked.child_create] at hx
    cases hx

theorem hung_create : (create initialState).Hung := by
  refine ⟨?_, ?_⟩
  · intro v a' hv _
    obtain ⟨rfl, -⟩ := create_nodes hv
    rfl
  · intro v a' q hv hq
    obtain ⟨-, rfl⟩ := create_nodes hv
    cases hq

/-! ## Changes that leave the links -/

/-- The same nodes with the same links. -/
structure SameLinks (t t' : PTree) : Prop where
  nodes : ∀ {v a'}, t'.nodes v = some a' → ∃ a, t.nodes v = some a ∧
    a'.parent = a.parent ∧ ∀ s, (a'.child s).pointer = (a.child s).pointer
  present : ∀ {v a}, t.nodes v = some a → ∃ a', t'.nodes v = some a'
  root : t'.root.pointer = t.root.pointer
  next : t'.nextNode = t.nextNode

namespace SameLinks

theorem refl : SameLinks t t := ⟨fun h => ⟨_, h, rfl, fun _ => rfl⟩, fun h => ⟨_, h⟩, rfl, rfl⟩

theorem trans {t'' : PTree} (h : SameLinks t t') (h' : SameLinks t' t'') : SameLinks t t'' where
  nodes := by
    intro v a'' hv
    obtain ⟨a', ha', hpar', hch'⟩ := h'.nodes hv
    obtain ⟨a, ha, hpar, hch⟩ := h.nodes ha'
    exact ⟨a, ha, hpar'.trans hpar, fun s => (hch' s).trans (hch s)⟩
  present := by
    intro v a hv
    obtain ⟨a', ha'⟩ := h.present hv
    exact h'.present ha'
  root := h'.root.trans h.root
  next := h'.next.trans h.next

theorem symm (h : SameLinks t t') : SameLinks t' t where
  nodes := by
    intro v a hv
    obtain ⟨a', ha'⟩ := h.present hv
    obtain ⟨a1, ha1, hpar, hch⟩ := h.nodes ha'
    rw [hv] at ha1
    cases ha1
    exact ⟨a', ha', hpar.symm, fun s => (hch s).symm⟩
  present := by
    intro v a' hv
    obtain ⟨a, ha, -⟩ := h.nodes hv
    exact ⟨a, ha⟩
  root := h.root.symm
  next := h.next.symm

theorem setNode (hn : t.nodes n = some a) (hparent : b.parent = a.parent)
    (hchild : ∀ s, (b.child s).pointer = (a.child s).pointer) : SameLinks t (t.setNode n b) where
  nodes := by
    intro v a' hv
    obtain ⟨rfl, rfl⟩ | ⟨-, hv⟩ := nodes_setNode_cases hv
    · exact ⟨a, hn, hparent, hchild⟩
    · exact ⟨a', hv, rfl, fun _ => rfl⟩
  present := by
    intro v a' hv
    by_cases hvn : v = n
    · subst hvn
      exact ⟨b, nodes_setNode_self⟩
    · exact ⟨a', by rw [nodes_setNode_of_ne hvn, hv]⟩
  root := rfl
  next := rfl

theorem linked (h : SameLinks t t') (hl : t.Linked) : t'.Linked := by
  refine hl.shrink h.next fun v a' hv => ?_
  obtain ⟨a, ha, hpar, hch⟩ := h.nodes hv
  refine ⟨a, ha, hpar, fun s c hc => ?_⟩
  rw [hch] at hc
  obtain ⟨b, hb, -⟩ := hl.child ha hc
  exact ⟨hc, h.present hb⟩

theorem hung (h : SameLinks t t') (hh : t.Hung) : t'.Hung where
  root := by
    intro v a' hv hparent
    obtain ⟨a, ha, hpar, -⟩ := h.nodes hv
    rw [h.root]
    exact hh.root ha (hpar.symm.trans hparent)
  parent := by
    intro v a' q hv hq
    obtain ⟨a, ha, hpar, -⟩ := h.nodes hv
    obtain ⟨b, s, hb, hs⟩ := hh.parent ha (hpar.symm.trans hq)
    obtain ⟨b', hb', -, hch⟩ := h.symm.nodes hb
    exact ⟨b', s, hb', (hch s).symm.trans hs⟩

end SameLinks

/-! ## The walk to the root -/

/-- The walk from a node, which has reached the root. -/
inductive Climb (t : PTree) : NodeRef → List NodeRef → Prop
  | root {n : NodeRef} {a : PTreeNode} (hn : t.nodes n = some a) (hparent : a.parent = none) :
      Climb t n [n]
  | up {n p : NodeRef} {a : PTreeNode} {path : List NodeRef} (hn : t.nodes n = some a)
      (hparent : a.parent = some p) (hclimb : Climb t p path) : Climb t n (n :: path)

namespace Climb

variable (hc : Climb t n path)
include hc

theorem mem_le (h : t.Linked) : ∀ v ∈ path, v ≤ n := by
  induction hc with
  | root hn hparent =>
    intro v hv
    exact (List.mem_singleton.mp hv).le
  | up hn hparent hclimb ih =>
    intro v hv
    rcases List.mem_cons.mp hv with rfl | hv
    · exact le_rfl
    · exact (ih v hv).trans (h.parent_lt hn hparent).le

theorem start_mem : n ∈ path := by
  cases hc with
  | root => exact List.mem_singleton_self _
  | up => exact List.mem_cons_self

theorem present : ∀ v ∈ path, ∃ a, t.nodes v = some a := by
  induction hc with
  | root hn hparent =>
    intro v hv
    rw [List.mem_singleton.mp hv]
    exact ⟨_, hn⟩
  | up hn hparent hclimb ih =>
    intro v hv
    rcases List.mem_cons.mp hv with rfl | hv
    · exact ⟨_, hn⟩
    · exact ih v hv

theorem exists_root : ∃ v a, v ∈ path ∧ t.nodes v = some a ∧ a.parent = none := by
  induction hc with
  | root hn hparent => exact ⟨_, _, List.mem_singleton_self _, hn, hparent⟩
  | up hn hparent hclimb ih =>
    obtain ⟨v, a, hv, ha, hnone⟩ := ih
    exact ⟨v, a, List.mem_cons_of_mem _ hv, ha, hnone⟩

theorem decreasing (h : t.Linked) : path.Pairwise (· > ·) := by
  induction hc with
  | root hn hparent => exact List.pairwise_singleton _ _
  | up hn hparent hclimb ih =>
    refine List.pairwise_cons.mpr ⟨fun v hv => ?_, ih⟩
    exact (hclimb.mem_le h v hv).trans_lt (h.parent_lt hn hparent)

/-- The parent of a node of the walk is the next one. -/
theorem next (h : t.Linked) (hv : v ∈ path) (ha : t.nodes v = some a) :
    (∀ p, a.parent = some p → p ∈ path) ∧ ∀ w ∈ path, w < v → ∃ p, a.parent = some p ∧ w ≤ p := by
  induction hc with
  | @root n b hn hparent =>
    cases List.mem_singleton.mp hv
    rw [hn] at ha
    cases ha
    refine ⟨fun p hp => ?_, fun w hw hlt => ?_⟩
    · rw [hparent] at hp
      cases hp
    · cases List.mem_singleton.mp hw
      exact absurd hlt (lt_irrefl _)
  | @up n q b path hn hparent hclimb ih =>
    rcases List.mem_cons.mp hv with rfl | hv'
    · rw [hn] at ha
      cases ha
      refine ⟨fun p hp => ?_, fun w hw hlt => ?_⟩
      · rw [hparent] at hp
        cases hp
        exact List.mem_cons_of_mem _ hclimb.start_mem
      · rcases List.mem_cons.mp hw with rfl | hw
        · exact absurd hlt (lt_irrefl _)
        · exact ⟨q, hparent, hclimb.mem_le h w hw⟩
    · obtain ⟨hpar, hnext⟩ := ih hv'
      refine ⟨fun p hp => List.mem_cons_of_mem _ (hpar p hp), fun w hw hlt => ?_⟩
      rcases List.mem_cons.mp hw with rfl | hw
      · have := (hclimb.mem_le h v hv').trans_lt (h.parent_lt hn hparent)
        exact absurd hlt this.not_gt
      · exact hnext w hw hlt

theorem of_sameLinks (h : SameLinks t t') : Climb t' n path := by
  induction hc with
  | root hn hparent =>
    obtain ⟨a', ha', hpar, -⟩ := h.symm.nodes hn
    exact .root ha' (hpar.symm.trans hparent)
  | up hn hparent hclimb ih =>
    obtain ⟨a', ha', hpar, -⟩ := h.symm.nodes hn
    exact .up ha' (hpar.symm.trans hparent) ih

end Climb

/-! ## The loop of `remove` -/

/-- The node has exactly one child. -/
def Straight (t : PTree) (n : NodeRef) : Prop :=
  ∃ a s c, t.nodes n = some a ∧ (a.child s).pointer = some c ∧
    ∀ s' ≠ s, (a.child s').pointer = none

section Node

variable (hn : t.nodes n = some a)
include hn

theorem dropped_root (hleaf : a.hasChild = false)
    (hparent : a.parent = none) : Dropped t (t.delete n) n a where
  present := hn
  leaf := hleaf
  gone := nodes_delete_self
  parent := by
    intro p hp
    rw [hparent] at hp
    cases hp
  rest := fun hv _ => nodes_delete_of_ne hv
  root := rfl
  next := rfl

theorem dropped_child (hleaf : a.hasChild = false)
    (hparent : a.parent = some p) (hpn : p ≠ n) (hp : t.nodes p = some b)
    (hs : (b.child s).pointer = some n) :
    Dropped t ((t.setNode p (b.setChild .null s)).delete n) n a where
  present := hn
  leaf := hleaf
  gone := nodes_delete_self
  parent := by
    intro q hq
    rw [hparent] at hq
    cases hq
    exact ⟨b, s, hp, hs, nodes_setNode_delete hpn⟩
  rest := by
    intro v hvn hvp
    have hne : v ≠ p := by
      rintro rfl
      exact hvp hparent
    rw [nodes_delete_of_ne hvn, nodes_setNode_of_ne hne]
  root := rfl
  next := rfl

theorem removeUp_root (hparent : a.parent = none) :
    removeUp (fuel + 1) t n = .ok (t.delete n, none) := by
  rw [removeUp, node_eq_ok.mpr hn, ok_bind, hparent]
  rfl

/-- One round of the loop, at a node that its parent points to. -/
theorem removeUp_child (h : t.Linked) (hparent : a.parent = some p)
    (hp : t.nodes p = some b)
    (hs : (b.child s).pointer = some n) :
    removeUp (fuel + 1) t n =
      let t1 := (t.setNode p (b.setChild .null s)).delete n
      if (b.setChild .null s).hasChild then .ok (t1, some p) else removeUp fuel t1 p := by
  have hpn : p ≠ n := (h.parent_lt hn hparent).ne
  have hnode : ((t.setNode p (b.setChild .null s)).delete n).node p =
      .ok (b.setChild .null s) := node_eq_ok.mpr (nodes_setNode_delete hpn)
  rw [removeUp, node_eq_ok.mpr hn, ok_bind, hparent]
  show (t.node p >>= _) = _
  rw [node_eq_ok.mpr hp]
  cases s with
  | left =>
    dsimp only [bind, Except.bind]
    rw [if_pos (show b.left.pointer = some n from hs)]
    show (((t.setNode p (b.setChild .null .left)).delete n).node p >>= _) = _
    rw [hnode]
    rfl
  | right =>
    have hl : b.left.pointer ≠ some n := fun hl => by
      cases h.distinct hp (s := .left) hl hs
    dsimp only [bind, Except.bind]
    rw [if_neg hl, if_pos (show b.right.pointer = some n from hs)]
    show (((t.setNode p (b.setChild .null .right)).delete n).node p >>= _) = _
    rw [hnode]
    rfl

/-- A round that returns was at a node that its parent, if any, points to. -/
theorem removeUp_inv {r : PTree × Option NodeRef}
    (hrun : removeUp (fuel + 1) t n = .ok r) : a.parent = none ∨
      ∃ p b s, a.parent = some p ∧ t.nodes p = some b ∧ (b.child s).pointer = some n := by
  cases hparent : a.parent with
  | none => exact .inl rfl
  | some p =>
    refine .inr ⟨p, ?_⟩
    rw [removeUp, node_eq_ok.mpr hn, ok_bind, hparent] at hrun
    obtain ⟨b, hb, hrun⟩ := bind_eq_ok.mp hrun
    obtain ⟨t1, ht1, -⟩ := bind_eq_ok.mp hrun
    refine ⟨b, ?_⟩
    by_cases hl : b.left.pointer = some n
    · exact ⟨.left, rfl, node_eq_ok.mp hb, hl⟩
    · rw [if_neg hl] at ht1
      by_cases hr : b.right.pointer = some n
      · exact ⟨.right, rfl, node_eq_ok.mp hb, hr⟩
      · rw [if_neg hr] at ht1
        cases ht1

end Node

theorem straight_of_hasChild (hs : (b.setChild .null s).hasChild = true)
    (hp : t.nodes p = some (b.setChild .null s)) : t.Straight p := by
  obtain ⟨s', c, hc⟩ := PTreeNode.hasChild_iff.mp hs
  have hss : s' ≠ s := by
    rintro rfl
    rw [child_setChild] at hc
    cases hc
  refine ⟨_, s', c, hp, hc, fun s'' hs'' => ?_⟩
  obtain rfl : s'' = s := by
    cases s <;> cases s' <;> cases s'' <;>
      first | rfl | exact absurd rfl hss | exact absurd rfl hs''
  rw [child_setChild]
  rfl

/-- `J` holds when a node may be cut off, and `I` afterwards. -/
theorem removeUp_rule {r : Option NodeRef}
    (hstep : ∀ {t t' n a}, t.Linked → J t n → Dropped t t' n a →
      I t' ∧ ∀ p, a.parent = some p → J t' p) (h : t.Linked) (hJ : J t n)
    (hn : t.nodes n = some a) (hleaf : a.hasChild = false)
    (hrun : removeUp fuel t n = .ok (t', r)) :
    t'.Linked ∧ I t' ∧ ∀ p, r = some p → t'.Straight p := by
  induction fuel generalizing t n a with
  | zero => cases hrun
  | succ fuel ih =>
    obtain hparent | ⟨p, b, s, hparent, hp, hs⟩ := removeUp_inv hn hrun
    · rw [removeUp_root hn hparent] at hrun
      cases hrun
      have hd := dropped_root hn hleaf hparent
      refine ⟨h.dropped hd, (hstep h hJ hd).1, ?_⟩
      intro p hp
      cases hp
    · rw [removeUp_child hn h hparent hp hs] at hrun
      have hpn : p ≠ n := (h.parent_lt hn hparent).ne
      have hd := dropped_child hn hleaf hparent hpn hp hs
      obtain ⟨hI1, hJ1⟩ := hstep h hJ hd
      have hp1 := nodes_setNode_delete (t := t) (a := b.setChild .null s) hpn
      replace hrun : (if _ then _ else _) = _ := hrun
      split at hrun
      next hchild =>
        cases hrun
        refine ⟨h.dropped hd, hI1, ?_⟩
        intro q hq
        cases hq
        exact straight_of_hasChild hchild hp1
      next hchild =>
        rw [Bool.not_eq_true] at hchild
        exact ih (h.dropped hd) (hJ1 p hparent) hp1 hchild hrun

theorem removeUp_returns (h : t.Linked) (hh : t.Hung) (hn : t.nodes n = some a)
    (hleaf : a.hasChild = false) (hfuel : n < fuel) : ∃ r, removeUp fuel t n = .ok r := by
  induction fuel generalizing t n a with
  | zero => exact absurd hfuel n.not_lt_zero
  | succ fuel ih =>
    cases hparent : a.parent with
    | none => exact ⟨_, removeUp_root hn hparent⟩
    | some p =>
      obtain ⟨b, s, hp, hs⟩ := hh.parent hn hparent
      have hpn : p < n := h.parent_lt hn hparent
      have hd := dropped_child hn hleaf hparent hpn.ne hp hs
      rw [removeUp_child hn h hparent hp hs]
      by_cases hc : (b.setChild .null s).hasChild = true
      · exact ⟨_, if_pos hc⟩
      · obtain ⟨r, hr⟩ := ih (h.dropped hd) (hh.dropped hd) (nodes_setNode_delete hpn.ne)
          (Bool.not_eq_true _ ▸ hc) (hpn.trans_le (Nat.lt_succ_iff.mp hfuel))
        exact ⟨r, (if_neg hc).trans hr⟩

/-! ## The operations -/

theorem attach_attached {left right : NodeRef} (h : t.Linked)
    (hrun : t.attach n l r = .ok (t', left, right)) : left = t.nextNode ∧
      right = t.nextNode + 1 ∧ ∃ a ptr, t.childPtr n = .ok ptr ∧ Attached t t' n a ptr.int l r := by
  obtain ⟨a, ha, hrun⟩ := bind_eq_ok.mp hrun
  obtain ⟨ptr, hptr, hrun⟩ := bind_eq_ok.mp hrun
  rw [node_eq_ok] at ha
  cases hrun
  have hlt : n < t.nextNode := h.bound ha
  have hlt1 : n < t.nextNode + 1 := hlt.trans (Nat.lt_succ_self _)
  have hne : t.nextNode ≠ t.nextNode + 1 := (Nat.lt_succ_self _).ne
  refine ⟨rfl, rfl, a, ptr, hptr, ha, ?_, ?_, nodes_setNode_self, ?_, rfl, rfl⟩
  · show ((setNode _ _ _).setNode _ _).nodes n = _
    rw [nodes_setNode_of_ne hlt1.ne, nodes_setNode_of_ne hlt.ne, nodes_setNode_self]
  · show ((setNode _ _ _).setNode _ _).nodes _ = _
    rw [nodes_setNode_of_ne hne, nodes_setNode_self]
  · intro v hvn hvl hvr
    show ((setNode _ _ _).setNode _ _).nodes v = _
    rw [nodes_setNode_of_ne hvr, nodes_setNode_of_ne hvl, nodes_setNode_of_ne hvn]

theorem childPtr_root (hn : t.nodes n = some a) (hparent : a.parent = none) :
    t.childPtr n = .ok t.root := by
  rw [childPtr, node_eq_ok.mpr hn]
  dsimp only [bind, Except.bind]
  rw [hparent]
  rfl

/-- Which of its children a node is. -/
theorem Linked.side_eq (h : t.Linked) {α : Type} (f : Side → α) (hp : t.nodes p = some b)
    (hs : (b.child s).pointer = some n) :
    (if b.left.pointer = some n then f .left else f .right) = f s := by
  cases s with
  | left => rw [if_pos (show b.left.pointer = some n from hs)]
  | right =>
    rw [if_neg]
    intro hl
    cases h.distinct hp (s := .left) hl hs

theorem childPtr_child (h : t.Linked) (hn : t.nodes n = some a) (hparent : a.parent = some p)
    (hp : t.nodes p = some b) (hs : (b.child s).pointer = some n) :
    t.childPtr n = .ok (b.child s) := by
  rw [childPtr, node_eq_ok.mpr hn]
  dsimp only [bind, Except.bind]
  rw [hparent]
  dsimp only
  rw [node_eq_ok.mpr hp]
  exact congrArg _ (h.side_eq b.child hp hs)

theorem attach_returns (h : t.Linked) (hh : t.Hung) (hn : t.nodes n = some a) :
    ∃ p, t.attach n l r = .ok p := by
  obtain ⟨ptr, hptr⟩ : ∃ ptr, t.childPtr n = .ok ptr := by
    cases hparent : a.parent with
    | none => exact ⟨_, childPtr_root hn hparent⟩
    | some p =>
      obtain ⟨b, s, hb, hs⟩ := hh.parent hn hparent
      exact ⟨_, childPtr_child h hn hparent hb hs⟩
  rw [attach, node_eq_ok.mpr hn]
  dsimp only [bind, Except.bind]
  rw [hptr]
  exact ⟨_, rfl⟩

section Compress

variable (hn : t.nodes n = some a) (hchild : (a.child s).pointer = some c)
  (hother : ∀ s' ≠ s, (a.child s').pointer = none) (hc : t.nodes c = some b)
include hn hchild hother hc

theorem spliced_compress (h : t.Linked) {u : Side} {d : PTreeNode}
    (hparent : a.parent = some p) (hp : t.nodes p = some d)
    (hs : (d.child u).pointer = some n) :
    Spliced t (((t.setNode c { b with parent := some p }).setNode p
      (d.setChild (a.child s) u)).delete n) n a s c b := by
  have hnc : n < c := h.child_gt hn hchild
  have hpn : p < n := h.parent_lt hn hparent
  refine ⟨hn, hchild, hother, hc, nodes_delete_self, ?_, ?_, ?_, ?_, rfl⟩
  · rw [nodes_delete_of_ne hnc.ne', nodes_setNode_of_ne (hpn.trans hnc).ne',
      nodes_setNode_self, hparent]
  · intro q hq
    rw [hparent] at hq
    cases hq
    exact ⟨d, u, hp, hs, nodes_setNode_delete hpn.ne⟩
  · intro v hvn hvc hvp
    have hne : v ≠ p := by
      rintro rfl
      exact hvp hparent
    rw [nodes_delete_of_ne hvn, nodes_setNode_of_ne hne, nodes_setNode_of_ne hvc]
  · rw [hparent]
    rfl

theorem spliced_compress_root (h : t.Linked) (hparent : a.parent = none) :
    Spliced t ({ t.setNode c { b with parent := none } with root := a.child s }.delete n)
      n a s c b := by
  have hnc : n < c := h.child_gt hn hchild
  refine ⟨hn, hchild, hother, hc, nodes_delete_self, ?_, ?_, ?_, ?_, rfl⟩
  · rw [nodes_delete_of_ne hnc.ne', hparent]
    exact nodes_setNode_self
  · intro q hq
    rw [hparent] at hq
    cases hq
  · intro v hvn hvc _
    rw [nodes_delete_of_ne hvn]
    exact nodes_setNode_of_ne hvc
  · rw [if_pos hparent]
    rfl

/-- The rest of `compress`, once the child is known. -/
theorem compress_eq : t.compress n =
      let t1 := t.setNode c { b with parent := a.parent }
      match a.parent with
      | none => .ok ({ t1 with root := a.child s }.delete n)
      | some p => t1.node p >>= fun d =>
        if d.left.pointer = some n then
          .ok ((t1.setNode p { d with left := a.child s }).delete n)
        else if d.right.pointer = some n then
          .ok ((t1.setNode p { d with right := a.child s }).delete n)
        else .error (.assertion "n == parent->right.getPointer()") := by
  have hif : (if a.left.pointer.isSome then a.left else a.right) = a.child s := by
    cases s with
    | left =>
      rw [if_pos]
      · rfl
      · rw [show a.left.pointer = some c from hchild]
        rfl
    | right =>
      rw [if_neg]
      · rfl
      · rw [show a.left.pointer = none from hother .left nofun]
        simp
  rw [compress, node_eq_ok.mpr hn]
  dsimp only [bind, Except.bind]
  rw [hif, hchild]
  dsimp only [modifyNode, bind, Except.bind]
  rw [node_eq_ok.mpr hc]
  rfl

end Compress

theorem compress_spliced (h : t.Linked) (hn : t.Straight n) (hrun : t.compress n = .ok t') :
    ∃ m a s c b, Spliced t t' m a s c b := by
  obtain ⟨a, s, c, hn, hchild, hother⟩ := hn
  obtain ⟨b, hc, -⟩ := h.child hn hchild
  rw [compress_eq hn hchild hother hc] at hrun
  cases hparent : a.parent with
  | none =>
    rw [hparent] at hrun
    cases hrun
    exact ⟨_, _, _, _, _, spliced_compress_root hn hchild hother hc h hparent⟩
  | some p =>
    rw [hparent] at hrun
    obtain ⟨d, hd, hrun⟩ := bind_eq_ok.mp hrun
    have hpc : p ≠ c := ((h.parent_lt hn hparent).trans (h.child_gt hn hchild)).ne
    rw [node_eq_ok, nodes_setNode_of_ne hpc] at hd
    split at hrun
    next hs =>
      cases hrun
      exact ⟨_, _, _, _, _, spliced_compress hn hchild hother hc h (u := .left) hparent hd hs⟩
    next =>
      split at hrun
      next hs =>
        cases hrun
        exact ⟨_, _, _, _, _, spliced_compress hn hchild hother hc h (u := .right) hparent hd hs⟩
      next => cases hrun

theorem compress_returns (h : t.Linked) (hh : t.Hung) (hn : t.Straight n) :
    ∃ t', t.compress n = .ok t' := by
  obtain ⟨a, s, c, hn, hchild, hother⟩ := hn
  obtain ⟨b, hc, -⟩ := h.child hn hchild
  rw [compress_eq hn hchild hother hc]
  cases hparent : a.parent with
  | none => exact ⟨_, rfl⟩
  | some p =>
    obtain ⟨d, s', hd, hs⟩ := hh.parent hn hparent
    have hpc : p ≠ c := ((h.parent_lt hn hparent).trans (h.child_gt hn hchild)).ne
    have hd1 : (t.setNode c { b with parent := some p }).node p = .ok d := by
      rw [node_eq_ok, nodes_setNode_of_ne hpc, hd]
    dsimp only
    rw [hd1]
    dsimp only [bind, Except.bind]
    split
    next => exact ⟨_, rfl⟩
    next hl =>
      cases s' with
      | left => exact absurd hs hl
      | right => exact ⟨_, if_pos hs⟩

section Remove

variable (h : t.Linked) (hrun : t.remove compressProcessTree n = .ok t')
include h hrun

theorem remove_rule (hdrop : ∀ {t t' n a}, t.Linked → J t n → Dropped t t' n a →
      I t' ∧ ∀ p, a.parent = some p → J t' p)
    (hsplice : ∀ {t t' n a s c b}, t.Linked → I t → Spliced t t' n a s c b → I t')
    (hJ : J t n) : I t' := by
  obtain ⟨a, ha, hrun⟩ := bind_eq_ok.mp hrun
  split at hrun
  next => cases hrun
  next hleaf =>
    rw [Bool.not_eq_true] at hleaf
    obtain ⟨⟨t1, r⟩, h1, hrun⟩ := bind_eq_ok.mp hrun
    obtain ⟨hl1, hI1, hstraight⟩ := removeUp_rule hdrop h hJ (node_eq_ok.mp ha) hleaf h1
    cases r with
    | none =>
      cases hrun
      exact hI1
    | some m =>
      replace hrun : (if compressProcessTree then t1.compress m else .ok t1) = .ok t' := hrun
      split at hrun
      · obtain ⟨_, _, _, _, _, hs⟩ := compress_spliced hl1 (hstraight m rfl) hrun
        exact hsplice hl1 hI1 hs
      · cases hrun
        exact hI1

theorem remove_surgery : Relation.ReflTransGen Surgery t t' :=
  remove_rule h hrun (I := Relation.ReflTransGen Surgery t)
    (J := fun t' _ => Relation.ReflTransGen Surgery t t')
    (fun _ hJ hd => ⟨hJ.tail (.drop hd), fun _ _ => hJ.tail (.drop hd)⟩)
    (fun _ hI hs => hI.tail (.splice hs)) .refl

/-- The node that is to be removed is gone. -/
theorem remove_gone : t'.nodes n = none := by
  have hgone : ∀ {t t' : PTree}, Surgery t t' → t.nodes n = none → t'.nodes n = none := by
    intro t t' hs hn
    cases hv : t'.nodes n with
    | none => rfl
    | some a' =>
      obtain ⟨a, q, l, r, ha, -⟩ := hs.was hv
      rw [hn] at ha
      cases ha
  refine remove_rule h hrun (I := fun t => t.nodes n = none)
    (J := fun t m => m = n ∨ t.nodes n = none) ?_ (fun _ hI hs => hgone (.splice hs) hI)
    (.inl rfl)
  intro t t' m a _ hJ hd
  have hI : t'.nodes n = none := by
    rcases hJ with rfl | hn
    · exact hd.gone
    · exact hgone (.drop hd) hn
  exact ⟨hI, fun _ _ => .inr hI⟩

end Remove

theorem remove_returns (compressProcessTree : Bool) (h : t.Linked) (hh : t.Hung)
    (hn : t.nodes n = some a) (hleaf : a.hasChild = false) :
    ∃ t', t.remove compressProcessTree n = .ok t' := by
  obtain ⟨⟨t1, r⟩, h1⟩ := removeUp_returns h hh hn hleaf
    ((h.bound hn).trans (Nat.lt_succ_self _))
  obtain ⟨hl1, hh1, hstraight⟩ := removeUp_rule (I := Hung) (J := fun t _ => t.Hung)
    (fun _ hJ hd => ⟨hJ.dropped hd, fun _ _ => hJ.dropped hd⟩) h hh hn hleaf h1
  rw [remove, node_eq_ok.mpr hn]
  dsimp only [bind, Except.bind]
  rw [if_neg (by rw [hleaf]; exact Bool.false_ne_true), h1]
  cases r with
  | none => exact ⟨t1, rfl⟩
  | some m =>
    cases compressProcessTree with
    | false => exact ⟨t1, rfl⟩
    | true =>
      exact compress_returns hl1 hh1 (hstraight m rfl)

end PTree

end VitalSE
