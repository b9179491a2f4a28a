import Mathlib.Algebra.Order.BigOperators.Group.List
import Mathlib.Algebra.Ring.Rat
import Mathlib.Tactic.Abel
import VitalSE.Proofs.ProcessTreeSound

/-!
# Conservation of visits and rewards

A back-propagation adds one visit and its reward at every node from where it
starts up to the root. The log beside the tree keeps the nodes it went through,
and forks and removals do not touch it. Along any sequence of operations the
log stays in step with the tree: the nodes of an entry that are still there are
a path of the present tree (`Traced`). So an entry that went through a node went
through at most one of its present children, and one that went through a child
went through the node, which gives the law.

The visits are an unsigned integer of 32 bits in the source. The model counts
without bound, and the counter is what is left modulo `2 ^ 32`.
-/

namespace VitalSE.PTree

open LinkedTree (Side)
open Except (bind_eq_ok)

/-! ## Sequences of operations -/

/-- The nodes from a node up to the root. -/
def rootPath (t : PTree) : Nat → NodeRef → List NodeRef
  | 0, _ => []
  | fuel + 1, n =>
    match t.nodes n with
    | none => []
    | some a =>
      match a.parent with
      | none => [n]
      | some p => n :: rootPath t fuel p

/-- A back-propagation that was made: the nodes it went through, and its reward. -/
structure Backpropagation where
  path : List NodeRef
  reward : ℚ
deriving DecidableEq

/-- What the executor does to the tree. -/
inductive TreeOp
  | fork (n : NodeRef) (leftState rightState : StateRef)
  | remove (n : NodeRef)
  | backpropagate (n : NodeRef) (reward : ℚ)

/-- The tree, and the walks up to its root so far. -/
structure Logged where
  tree : PTree
  log : List Backpropagation

/-- A walk is logged with the nodes that it goes through. -/
def TreeOp.apply (compressProcessTree : Bool) (x : Logged) :
    TreeOp → Except Abort Logged
  | .fork n l r => do
    let (t, _, _) ← x.tree.attach n l r
    return { x with tree := t }
  | .remove n => do
    return { x with tree := ← x.tree.remove compressProcessTree n }
  | .backpropagate n reward => do
    return { tree := ← x.tree.doBackpropagation reward n
             log := ⟨x.tree.rootPath (x.tree.nextNode + 1) n, reward⟩ :: x.log }

/-- A run of operations. -/
def runOps (compressProcessTree : Bool) (x : Logged) (ops : List TreeOp) :
    Except Abort Logged :=
  ops.foldlM (TreeOp.apply compressProcessTree) x

/-- What the callers see to: forks and removals are at leaves. -/
def TreeOp.Valid (t : PTree) : TreeOp → Prop
  | .fork n _ _ | .remove n => ∃ a, t.nodes n = some a ∧ a.hasChild = false
  | .backpropagate n _ => ∃ a, t.nodes n = some a

/-- Every operation is possible when it is made. -/
def ValidRun (compressProcessTree : Bool) : Logged → List TreeOp → Prop
  | _, [] => True
  | x, op :: ops => op.Valid x.tree ∧
      ∀ x', op.apply compressProcessTree x = .ok x' → ValidRun compressProcessTree x' ops

variable {t t' : PTree} {n p c v w : NodeRef} {a b : PTreeNode} {s : Side} {fuel : Nat}
  {e : Backpropagation} {reward : ℚ} {tag : BitVec 3} {l r : StateRef} {ptr : PTreeNodePtr}
  {op : TreeOp} {ops : List TreeOp} {x x' : Logged} {path : List NodeRef}
  {compressProcessTree : Bool} {M : Type} {f : PTreeNode → M} {weight : Backpropagation → M}

/-! ## Back-propagation -/

theorem Climb.rootPath_eq (h : t.Linked) (hc : Climb t n path) (hfuel : n < fuel) :
    t.rootPath fuel n = path := by
  induction hc generalizing fuel with
  | @root n a hn hparent =>
    cases fuel with
    | zero => exact absurd hfuel n.not_lt_zero
    | succ fuel => simp only [rootPath, hn, hparent]
  | @up n p a path hn hparent hclimb ih =>
    cases fuel with
    | zero => exact absurd hfuel n.not_lt_zero
    | succ fuel =>
      have hp : p < fuel := (h.parent_lt hn hparent).trans_le (Nat.lt_succ_iff.mp hfuel)
      simp only [rootPath, hn, hparent, ih hp]

/-- The node after a walk through it. -/
def visited (a : PTreeNode) (reward : ℚ) : PTreeNode :=
  { a with visit := a.visit + 1, reward := a.reward + reward }

/-- The nodes of a path are visited. -/
structure Visited (t t' : PTree) (path : List NodeRef) (reward : ℚ) : Prop where
  links : SameLinks t t'
  nodes : ∀ v, t'.nodes v =
    (t.nodes v).map fun a => if v ∈ path then visited a reward else a

theorem visited_setNode (reward : ℚ) (hn : t.nodes n = some a) :
    Visited t (t.setNode n (visited a reward)) [n] reward where
  links := .setNode hn rfl fun s => by cases s <;> rfl
  nodes := by
    intro v
    by_cases hvn : v = n
    · subst hvn
      rw [nodes_setNode_self, hn, Option.map_some, if_pos (List.mem_singleton_self _)]
    · have hnot : v ∉ [n] := fun h => hvn (List.mem_singleton.mp h)
      rw [nodes_setNode_of_ne hvn]
      simp only [if_neg hnot, Option.map_id_fun', id]

theorem Visited.trans {t'' : PTree} {path' : List NodeRef}
    (h : Visited t t' path reward) (h' : Visited t' t'' path' reward)
    (hdisjoint : ∀ v ∈ path, v ∉ path') : Visited t t'' (path ++ path') reward where
  links := h.links.trans h'.links
  nodes := by
    intro v
    rw [h'.nodes, h.nodes, Option.map_map]
    congr 1
    funext a
    simp only [Function.comp_apply, List.mem_append]
    by_cases hv : v ∈ path
    · rw [if_pos hv, if_neg (hdisjoint v hv), if_pos (.inl hv)]
    · by_cases hv' : v ∈ path'
      · rw [if_neg hv, if_pos hv', if_pos (.inr hv')]
      · rw [if_neg hv, if_neg hv', if_neg (not_or.mpr ⟨hv, hv'⟩)]

theorem propagateUp_eq (hn : t.nodes n = some a) :
    propagateUp reward (fuel + 1) t n =
      match a.parent with
      | none => .ok (t.setNode n (visited a reward))
      | some p => propagateUp reward fuel (t.setNode n (visited a reward)) p := by
  rw [propagateUp, node_eq_ok.mpr hn]
  rfl

theorem propagateUp_visited (h : t.Linked) (hrun : propagateUp reward fuel t n = .ok t')
    : ∃ path, Climb t n path ∧ Visited t t' path reward := by
  induction fuel generalizing t n with
  | zero => cases hrun
  | succ fuel ih =>
    obtain ⟨a, ha, -⟩ := bind_eq_ok.mp hrun
    rw [node_eq_ok] at ha
    rw [propagateUp_eq ha] at hrun
    have hvis := visited_setNode reward ha
    cases hparent : a.parent with
    | none =>
      rw [hparent] at hrun
      cases hrun
      exact ⟨[n], .root ha hparent, hvis⟩
    | some p =>
      rw [hparent] at hrun
      have hl := hvis.links.linked h
      obtain ⟨path, hclimb, hrest⟩ := ih hl hrun
      refine ⟨n :: path, .up ha hparent (hclimb.of_sameLinks hvis.links.symm),
        hvis.trans hrest fun v hv hpath => ?_⟩
      rw [List.mem_singleton.mp hv] at hpath
      exact absurd (h.parent_lt ha hparent) (hclimb.mem_le hl n hpath).not_gt

theorem propagateUp_returns (reward : ℚ) (h : t.Linked) (hh : t.Hung)
    (hn : t.nodes n = some a) (hfuel : n < fuel) : ∃ t', propagateUp reward fuel t n = .ok t' := by
  induction fuel generalizing t n a with
  | zero => exact absurd hfuel n.not_lt_zero
  | succ fuel ih =>
    rw [propagateUp_eq hn]
    have hvis := visited_setNode reward hn
    cases hparent : a.parent with
    | none => exact ⟨_, rfl⟩
    | some p =>
      obtain ⟨b, s, hb, -⟩ := hh.parent hn hparent
      obtain ⟨b', hb'⟩ := hvis.links.present hb
      exact ih (hvis.links.linked h) (hvis.links.hung hh) hb'
        ((h.parent_lt hn hparent).trans_le (Nat.lt_succ_iff.mp hfuel))

/-! ## Old paths in the present tree -/

/-- The nodes of an old path that are still there are a path of the tree. -/
structure Traced (t : PTree) (path : List NodeRef) : Prop where
  old : ∀ {v}, v ∈ path → v < t.nextNode
  decreasing : path.Pairwise (· > ·)
  parent : ∀ {v a p}, v ∈ path → t.nodes v = some a → a.parent = some p → p ∈ path
  next : ∀ {v a w b}, v ∈ path → t.nodes v = some a → w ∈ path → t.nodes w = some b →
    w < v → ∃ p, a.parent = some p ∧ w ≤ p

namespace Traced

/-- A path that was just taken. -/
theorem of_climb (h : t.Linked) (hc : Climb t n path) : Traced t path where
  old := by
    intro v hv
    obtain ⟨a, ha⟩ := hc.present v hv
    exact h.bound ha
  decreasing := hc.decreasing h
  parent := by
    intro v a p hv ha hp
    exact (hc.next h hv ha).1 p hp
  next := by
    intro v a w b hv ha hw _ hlt
    exact (hc.next h hv ha).2 w hw hlt

variable (ht : Traced t path)
include ht

/-- The nodes of the path that are still there have the parents they had. -/
theorem keep (hnext : t.nextNode ≤ t'.nextNode) (hwas : ∀ {v a'}, v ∈ path → t'.nodes v = some a' →
      ∃ a, t.nodes v = some a ∧ a'.parent = a.parent) : Traced t' path where
  old hv := (ht.old hv).trans_le hnext
  decreasing := ht.decreasing
  parent := by
    intro v a' p hv ha' hp
    obtain ⟨a, ha, hpar⟩ := hwas hv ha'
    exact ht.parent hv ha (hpar.symm.trans hp)
  next := by
    intro v a' w b' hv ha' hw hb' hlt
    obtain ⟨a, ha, hpar⟩ := hwas hv ha'
    obtain ⟨b, hb, -⟩ := hwas hw hb'
    rw [hpar]
    exact ht.next hv ha hw hb hlt

theorem sameLinks (h : SameLinks t t') : Traced t' path := by
  refine ht.keep h.next.ge fun _ ha' => ?_
  obtain ⟨a, ha, hpar, -⟩ := h.nodes ha'
  exact ⟨a, ha, hpar⟩

theorem attached (h : Attached t t' n a tag l r) : Traced t' path := by
  refine ht.keep (by rw [h.next]; exact Nat.le_add_right ..) fun {v a'} hv ha' => ?_
  -- the leaves are too new to be on an old path
  have hlt := ht.old hv
  obtain ⟨rfl, rfl⟩ | ⟨st, -, hge, -⟩ | ⟨-, ha'⟩ := h.cases ha'
  · exact ⟨a, h.present, rfl⟩
  · exact absurd hlt hge.not_gt
  · exact ⟨a', ha', rfl⟩

theorem dropped (hd : Dropped t t' n a) : Traced t' path := by
  refine ht.keep hd.next.ge fun {v a'} _ ha' => ?_
  obtain ⟨-, ⟨b, s, -, hb, -, rfl⟩ | ⟨-, ha'⟩⟩ := hd.cases ha'
  · exact ⟨b, hb, PTreeNode.parent_setChild⟩
  · exact ⟨a', ha', rfl⟩

/-- A path through the child that moves up went through the node that goes. -/
theorem spliced (h : t.Linked) (hs : Spliced t t' n a s c b) : Traced t' path := by
  have hcn : b.parent = some n := h.parent_eq hs.present hs.child hs.below
  have hwas : ∀ {v a'}, t'.nodes v = some a' → ∃ d, t.nodes v = some d ∧ v ≠ n ∧
      (v ≠ c → d.parent = a'.parent) := by
    intro v a' ha'
    obtain ⟨hvn, ⟨rfl, -⟩ | ⟨d, s', -, hd, -, rfl⟩ | ⟨-, -, ha'⟩⟩ := hs.cases ha'
    · exact ⟨b, hs.below, hvn, fun hne => absurd rfl hne⟩
    · exact ⟨d, hd, hvn, fun _ => PTreeNode.parent_setChild.symm⟩
    · exact ⟨a', ha', hvn, fun _ => rfl⟩
  refine ⟨?_, ht.decreasing, ?_, ?_⟩
  · intro v hv
    rw [hs.next]
    exact ht.old hv
  · intro v a' p hv ha' hp
    by_cases hvc : v = c
    · subst hvc
      rw [hs.moved] at ha'
      cases ha'
      exact ht.parent (ht.parent hv hs.below hcn) hs.present hp
    · obtain ⟨d, hd, -, hpar⟩ := hwas ha'
      exact ht.parent hv hd ((hpar hvc).trans hp)
  · intro v a' w b' hv ha' hw hb' hlt
    obtain ⟨e, he, hwn, -⟩ := hwas hb'
    by_cases hvc : v = c
    · subst hvc
      rw [hs.moved] at ha'
      cases ha'
      obtain ⟨p, hp, hle⟩ := ht.next hv hs.below hw he hlt
      rw [hcn] at hp
      cases hp
      show ∃ p, a.parent = some p ∧ w ≤ p
      exact ht.next (ht.parent hv hs.below hcn) hs.present hw he (lt_of_le_of_ne hle hwn)
    · obtain ⟨d, hd, -, hpar⟩ := hwas ha'
      rw [← hpar hvc]
      exact ht.next hv hd hw he hlt

theorem surgeries (h : t.Linked) (hs : Relation.ReflTransGen Surgery t t') : Traced t' path := by
  induction hs with
  | refl => exact ht
  | tail hsteps hstep ih =>
    cases hstep with
    | drop hd => exact ih.dropped hd
    | splice hs => exact ih.spliced (h.surgeries hsteps) hs

/-- A path goes through one child of a node at most. -/
theorem child_unique (h : t.Linked) {c' : NodeRef} {b' : PTreeNode}
    (hc : c ∈ path) (hb : t.nodes c = some b) (hp : b.parent = some v) (hc' : c' ∈ path)
    (hb' : t.nodes c' = some b') (hp' : b'.parent = some v) : c = c' := by
  rcases lt_trichotomy c c' with hlt | heq | hlt
  · obtain ⟨q, hq, hle⟩ := ht.next hc' hb' hc hb hlt
    rw [hp'] at hq
    cases hq
    exact absurd (h.parent_lt hb hp) hle.not_gt
  · exact heq
  · obtain ⟨q, hq, hle⟩ := ht.next hc hb hc' hb' hlt
    rw [hp] at hq
    cases hq
    exact absurd (h.parent_lt hb' hp') hle.not_gt

/-- Below a node, a path with a present node goes through a child. -/
theorem exists_child (h : t.Linked) (hh : t.Hung) (hv : v ∈ path)
    (ha : t.nodes v = some a) (hw : w ∈ path) (hb : t.nodes w = some b) (hlt : v < w) :
    ∃ s c, (a.child s).pointer = some c ∧ c ∈ path := by
  -- the induction is on the number of the present node, going up from it
  induction w using Nat.strong_induction_on generalizing b with
  | _ w ih =>
    obtain ⟨p, hp, hle⟩ := ht.next hw hb hv ha hlt
    obtain ⟨d, s, hd, hs⟩ := hh.parent hb hp
    rcases Nat.eq_or_lt_of_le hle with heq | hlt'
    · subst heq
      rw [ha] at hd
      cases hd
      exact ⟨s, w, hs, hw⟩
    · exact ih p (h.parent_lt hb hp) (ht.parent hw hb hp) hd hlt'

end Traced

/-! ## Sums over the log -/

section Total

variable [AddCommMonoid M]

/-- The sum over the entries that have a property. -/
def total (weight : Backpropagation → M) (q : Backpropagation → Bool)
    (log : List Backpropagation) : M :=
  ((log.filter q).map weight).sum

variable {q q1 q2 : Backpropagation → Bool} {log : List Backpropagation}

theorem total_cons :
    total weight q (e :: log) = (if q e then weight e else 0) + total weight q log := by
  unfold total
  by_cases h : q e = true
  · rw [List.filter_cons_of_pos h, if_pos h, List.map_cons, List.sum_cons]
  · rw [List.filter_cons_of_neg h, if_neg h, zero_add]

theorem total_eq_zero (h : ∀ e ∈ log, q e = false) : total weight q log = 0 := by
  unfold total
  rw [List.filter_eq_nil_iff.mpr fun e he => by rw [h e he]; exact Bool.false_ne_true]
  rfl

theorem total_one_le (q : Backpropagation → Bool) (log : List Backpropagation) :
    total (fun _ => 1) q log ≤ log.length := by
  induction log with
  | nil => exact le_rfl
  | cons e log ih =>
    rw [total_cons, List.length_cons]
    split <;> omega

theorem total_one_replicate {k : Nat} :
    total (fun _ => 1) q (List.replicate k e ++ log) =
      (if q e then k else 0) + total (fun _ => 1) q log := by
  induction k with
  | zero => simp
  | succ k ih =>
    rw [List.replicate_succ, List.cons_append, total_cons, ih]
    split <;> omega

/-- Two properties that exclude each other, and what is left. -/
theorem total_split (h1 : ∀ e ∈ log, q1 e = true → q e = true)
    (h2 : ∀ e ∈ log, q2 e = true → q e = true) (h12 : ∀ e ∈ log, q1 e = true → q2 e = false) :
    total weight q log = total weight q1 log + total weight q2 log +
      total weight (fun e => q e && !q1 e && !q2 e) log := by
  induction log with
  | nil => simp [total]
  | cons e log ih =>
    have hrest := ih (fun e he => h1 e (List.mem_cons_of_mem _ he))
      (fun e he => h2 e (List.mem_cons_of_mem _ he))
      (fun e he => h12 e (List.mem_cons_of_mem _ he))
    have he1 := h1 e List.mem_cons_self
    have he2 := h2 e List.mem_cons_self
    have he12 := h12 e List.mem_cons_self
    rw [total_cons, total_cons, total_cons, total_cons, hrest]
    cases hq1 : q1 e with
    | true =>
      rw [he1 hq1, he12 hq1]
      simp [add_assoc]
    | false =>
      cases hq2 : q2 e with
      | true =>
        rw [he2 hq2]
        simp only [if_true, Bool.not_true, Bool.and_false, if_false, Bool.false_eq_true, zero_add]
        abel
      | false =>
        cases q e with
        | true =>
          simp only [if_true, Bool.not_false, Bool.and_true, if_false, Bool.false_eq_true, zero_add]
          abel
        | false => simp

end Total

/-! ## The counters -/

/-- The entry went through where a pointer points to. -/
def via (ptr : PTreeNodePtr) (e : Backpropagation) : Bool :=
  ptr.pointer.any fun c => c ∈ e.path

/-- The walk goes through the node. -/
def through (v : NodeRef) (e : Backpropagation) : Bool := v ∈ e.path

theorem through_iff : through v e = true ↔ v ∈ e.path :=
  decide_eq_true_iff

theorem via_iff : via ptr e = true ↔ ∃ c, ptr.pointer = some c ∧ c ∈ e.path := by
  unfold via
  cases ptr.pointer with
  | none => simp
  | some c => simp

/-- The entry went through a node and none of its present children. -/
def surplus (v : NodeRef) (a : PTreeNode) (e : Backpropagation) : Bool :=
  through v e && !via a.left e && !via a.right e

/-- What the node a pointer points to has, and nothing for a null pointer. -/
def below {M : Type} [Zero M] (t : PTree) (f : PTreeNode → M) (ptr : PTreeNodePtr) : M :=
  ((ptr.pointer.bind t.nodes).map f).getD 0

/-- The unsigned integer of the source. -/
def visitCounter (a : PTreeNode) : Nat := a.visit % 2 ^ 32

/-- The log is in step with the tree. -/
structure InStep (x : Logged) : Prop where
  linked : x.tree.Linked
  traced : ∀ e ∈ x.log, Traced x.tree e.path
  visit : ∀ {v a}, x.tree.nodes v = some a → a.visit = total (fun _ => 1) (through v) x.log
  reward : ∀ {v a}, x.tree.nodes v = some a →
    a.reward = total Backpropagation.reward (through v) x.log

namespace InStep

theorem of_counts (hlinked : x.tree.Linked) (htraced : ∀ e ∈ x.log, Traced x.tree e.path)
    (hcounts : ∀ v a, x.tree.nodes v = some a → a.visit = total (fun _ => 1) (through v) x.log ∧
        a.reward = total Backpropagation.reward (through v) x.log) : InStep x :=
  ⟨hlinked, htraced, fun ha => (hcounts _ _ ha).1, fun ha => (hcounts _ _ ha).2⟩

theorem create {initialState : StateRef} : InStep ⟨.create initialState, []⟩ := by
  refine of_counts linked_create (fun e he => by cases he) fun v a ha => ?_
  obtain ⟨-, rfl⟩ := create_nodes ha
  exact ⟨rfl, rfl⟩

variable (h : InStep x)
include h

theorem attached (ha : Attached x.tree t' n a tag l r) :
    InStep { x with tree := t' } := by
  -- no entry goes through a node that was not there
  have hnew : ∀ {M : Type} [AddCommMonoid M] (weight : Backpropagation → M) {v : NodeRef},
      x.tree.nextNode ≤ v → total weight (through v) x.log = 0 := by
    intro M _ weight v hle
    refine total_eq_zero fun e he => decide_eq_false fun hv => ?_
    exact absurd ((h.traced e he).old hv) hle.not_gt
  refine of_counts (h.linked.attached ha) (fun e he => (h.traced e he).attached ha)
    fun v a' hv => ?_
  obtain ⟨rfl, rfl⟩ | ⟨st, rfl, hge, -⟩ | ⟨-, hv⟩ := ha.cases hv
  · exact ⟨h.visit (a := a) ha.present, h.reward (a := a) ha.present⟩
  · exact ⟨(hnew _ hge).symm, (hnew _ hge).symm⟩
  · exact ⟨h.visit hv, h.reward hv⟩

theorem surgeries (hs : Relation.ReflTransGen Surgery x.tree t') :
    InStep { x with tree := t' } := by
  refine of_counts (h.linked.surgeries hs) (fun e he => (h.traced e he).surgeries h.linked hs)
    fun v a' hv => ?_
  obtain ⟨a, _, _, _, ha, rfl⟩ := surgeries_was hs hv
  exact ⟨h.visit (a := a) ha, h.reward (a := a) ha⟩

theorem visited (hc : Climb x.tree n path)
    (hv : Visited x.tree t' path reward) : InStep ⟨t', ⟨path, reward⟩ :: x.log⟩ := by
  refine of_counts (hv.links.linked h.linked) (fun e he => ?_) fun v a' ha' => ?_
  · rcases List.mem_cons.mp he with rfl | he
    · exact (Traced.of_climb h.linked hc).sameLinks hv.links
    · exact (h.traced e he).sameLinks hv.links
  · rw [hv.nodes] at ha'
    obtain ⟨a, ha, rfl⟩ := Option.map_eq_some_iff.mp ha'
    rw [total_cons, total_cons, ← h.visit ha, ← h.reward ha]
    by_cases hmem : v ∈ path
    · rw [if_pos hmem, if_pos (through_iff.mpr hmem), if_pos (through_iff.mpr hmem)]
      exact ⟨Nat.add_comm .., add_comm ..⟩
    · rw [if_neg hmem, if_neg (mt through_iff.mp hmem), if_neg (mt through_iff.mp hmem)]
      exact ⟨(Nat.zero_add _).symm, (zero_add _).symm⟩

theorem apply (hrun : op.apply compressProcessTree x = .ok x') : InStep x' := by
  cases op with
  | fork n l r =>
    obtain ⟨⟨t', left, right⟩, hattach, hrun⟩ := bind_eq_ok.mp hrun
    cases hrun
    obtain ⟨-, -, a, ptr, -, ha⟩ := attach_attached h.linked hattach
    exact h.attached ha
  | remove n =>
    obtain ⟨t', hremove, hrun⟩ := bind_eq_ok.mp hrun
    cases hrun
    exact h.surgeries (remove_surgery h.linked hremove)
  | backpropagate n reward =>
    obtain ⟨t', hprop, hrun⟩ := bind_eq_ok.mp hrun
    cases hrun
    obtain ⟨path, hc, hv⟩ := propagateUp_visited h.linked hprop
    obtain ⟨a, ha⟩ := hc.present n hc.start_mem
    rw [hc.rootPath_eq h.linked ((h.linked.bound ha).trans (Nat.lt_succ_self _))]
    exact h.visited hc hv

theorem runOps (hrun : runOps compressProcessTree x ops = .ok x') : InStep x' :=
  Except.foldlM_keeps (fun _ _ _ hx hstep => hx.apply hstep) h hrun

variable [AddCommMonoid M] (ha : x.tree.nodes v = some a)
  (hf : ∀ {v a}, x.tree.nodes v = some a → f a = total weight (through v) x.log)
include ha hf

/-- The sum over what a pointer points to. -/
theorem below_eq : x.tree.below f (a.child s) = total weight (via (a.child s)) x.log := by
  unfold below via
  cases hptr : (a.child s).pointer with
  | none => exact (total_eq_zero fun _ _ => rfl).symm
  | some c =>
    obtain ⟨b, hb, -⟩ := h.linked.child ha hptr
    show ((x.tree.nodes c).map f).getD 0 = total weight (through c) x.log
    rw [hb]
    exact hf hb

/-- The law, for what every entry adds at the nodes it goes through. -/
theorem law : f a = x.tree.below f a.left + x.tree.below f a.right +
      total weight (surplus v a) x.log := by
  have hchild : ∀ {e} (s : Side), e ∈ x.log → via (a.child s) e = true → ∃ c b,
      (a.child s).pointer = some c ∧ c ∈ e.path ∧ x.tree.nodes c = some b ∧
        b.parent = some v := by
    intro e s he hvia
    obtain ⟨c, hc, hmem⟩ := via_iff.mp hvia
    obtain ⟨b, hb, hpar⟩ := h.linked.child ha hc
    exact ⟨c, b, hc, hmem, hb, hpar⟩
  have hthrough : ∀ s : Side, ∀ e ∈ x.log, via (a.child s) e = true → through v e = true := by
    intro s e he hvia
    obtain ⟨c, b, -, hmem, hb, hpar⟩ := hchild s he hvia
    exact through_iff.mpr ((h.traced e he).parent hmem hb hpar)
  have hone : ∀ e ∈ x.log, via (a.child .left) e = true → via (a.child .right) e = false := by
    intro e he hl
    rw [← Bool.not_eq_true]
    intro hr
    obtain ⟨c, b, hc, hmem, hb, hpar⟩ := hchild .left he hl
    obtain ⟨c', b', hc', hmem', hb', hpar'⟩ := hchild .right he hr
    have heq := (h.traced e he).child_unique h.linked hmem hb hpar hmem' hb' hpar'
    rw [heq] at hc
    cases h.linked.distinct ha hc hc'
  calc f a = total weight (through v) x.log := hf ha
    _ = total weight (via (a.child .left)) x.log + total weight (via (a.child .right)) x.log +
        total weight (surplus v a) x.log := total_split (hthrough .left) (hthrough .right) hone
    _ = _ := by
      rw [← h.below_eq ha hf, ← h.below_eq ha hf]
      rfl

end InStep

/-! ## Sequences that the callers make -/

theorem hung_apply (h : x.tree.Linked) (hh : x.tree.Hung) (hvalid : op.Valid x.tree)
    (hrun : op.apply compressProcessTree x = .ok x') : x'.tree.Hung := by
  cases op with
  | fork n l r =>
    obtain ⟨a, ha, hleaf⟩ := hvalid
    obtain ⟨⟨t', left, right⟩, hattach, hrun⟩ := bind_eq_ok.mp hrun
    cases hrun
    obtain ⟨-, -, b, ptr, -, hb⟩ := attach_attached h hattach
    have heq := hb.present
    rw [ha] at heq
    cases heq
    exact hh.attached h hb hleaf
  | remove n =>
    obtain ⟨t', hremove, hrun⟩ := bind_eq_ok.mp hrun
    cases hrun
    exact hh.surgeries (remove_surgery h hremove)
  | backpropagate n reward =>
    obtain ⟨t', hprop, hrun⟩ := bind_eq_ok.mp hrun
    cases hrun
    obtain ⟨path, -, hv⟩ := propagateUp_visited h hprop
    exact hv.links.hung hh

theorem apply_returns (compressProcessTree : Bool) (h : x.tree.Linked) (hh : x.tree.Hung)
    (hvalid : op.Valid x.tree) : ∃ x', op.apply compressProcessTree x = .ok x' := by
  cases op with
  | fork n l r =>
    obtain ⟨a, ha, -⟩ := hvalid
    obtain ⟨p, hp⟩ := attach_returns (l := l) (r := r) h hh ha
    exact ⟨_, bind_eq_ok.mpr ⟨p, hp, rfl⟩⟩
  | remove n =>
    obtain ⟨a, ha, hleaf⟩ := hvalid
    obtain ⟨t', ht'⟩ := remove_returns compressProcessTree h hh ha hleaf
    exact ⟨_, bind_eq_ok.mpr ⟨t', ht', rfl⟩⟩
  | backpropagate n reward =>
    obtain ⟨a, ha⟩ := hvalid
    obtain ⟨t', ht'⟩ := propagateUp_returns reward h hh ha
      ((h.bound ha).trans (Nat.lt_succ_self _))
    exact ⟨_, bind_eq_ok.mpr ⟨t', ht', rfl⟩⟩

theorem runOps_returns (h : InStep x) (hh : x.tree.Hung)
    (hvalid : ValidRun compressProcessTree x ops) :
    ∃ x', runOps compressProcessTree x ops = .ok x' ∧ x'.tree.Hung := by
  induction ops generalizing x with
  | nil => exact ⟨x, rfl, hh⟩
  | cons op ops ih =>
    obtain ⟨x1, h1⟩ := apply_returns compressProcessTree h.linked hh hvalid.1
    obtain ⟨x', hx', hh'⟩ := ih (h.apply h1) (hung_apply h.linked hh hvalid.1 h1)
      (hvalid.2 x1 h1)
    refine ⟨x', ?_, hh'⟩
    rw [runOps, List.foldlM_cons]
    exact bind_eq_ok.mpr ⟨x1, h1, hx'⟩

/-- On a decreasing path, what comes before a node is larger. -/
theorem mem_takeWhile (h : path.Pairwise (· > ·)) (hv : v ∈ path) :
    w ∈ path.takeWhile (· ≠ v) ↔ w ∈ path ∧ v < w := by
  induction path with
  | nil => cases hv
  | cons u path ih =>
    obtain ⟨hu, hpath⟩ := List.pairwise_cons.mp h
    by_cases huv : u = v
    · subst huv
      rw [List.takeWhile_cons_of_neg (by simp)]
      constructor
      · intro hw
        cases hw
      · rintro ⟨hw, hlt⟩
        rcases List.mem_cons.mp hw with rfl | hw
        · exact absurd hlt (lt_irrefl _)
        · exact absurd hlt (hu w hw).not_gt
    · have hvp : v ∈ path := (List.mem_cons.mp hv).resolve_left (Ne.symm huv)
      rw [List.takeWhile_cons_of_pos (by simpa using huv), List.mem_cons, List.mem_cons,
        ih hpath hvp]
      constructor
      · rintro (rfl | ⟨hw, hlt⟩)
        · exact ⟨.inl rfl, hu v hvp⟩
        · exact ⟨.inr hw, hlt⟩
      · rintro ⟨rfl | hw, hlt⟩
        · exact .inl rfl
        · exact .inr ⟨hw, hlt⟩

/-- What an entry went through below the node is gone. -/
theorem surplus_iff (h : InStep x) (hh : x.tree.Hung) (he : e ∈ x.log)
    (ha : x.tree.nodes v = some a) : surplus v a e = true ↔
      v ∈ e.path ∧ ∀ w ∈ e.path.takeWhile (· ≠ v), x.tree.nodes w = none := by
  have ht := h.traced e he
  have hsplit : surplus v a e = true ↔
      v ∈ e.path ∧ ∀ s c, (a.child s).pointer = some c → c ∉ e.path := by
    unfold surplus
    rw [Bool.and_eq_true, Bool.and_eq_true, through_iff, Bool.not_eq_true', Bool.not_eq_true',
      ← Bool.not_eq_true, ← Bool.not_eq_true, via_iff, via_iff]
    constructor
    · rintro ⟨⟨hv, hl⟩, hr⟩
      refine ⟨hv, fun s c hc hmem => ?_⟩
      cases s with
      | left => exact hl ⟨c, hc, hmem⟩
      | right => exact hr ⟨c, hc, hmem⟩
    · rintro ⟨hv, hnone⟩
      exact ⟨⟨hv, fun ⟨c, hc, hmem⟩ => hnone .left c hc hmem⟩,
        fun ⟨c, hc, hmem⟩ => hnone .right c hc hmem⟩
  rw [hsplit]
  refine and_congr_right fun hv => ⟨fun hnone w hw => ?_, fun hgone s c hc hmem => ?_⟩
  · obtain ⟨hw, hlt⟩ := (mem_takeWhile ht.decreasing hv).mp hw
    cases hb : x.tree.nodes w with
    | none => rfl
    | some b =>
      obtain ⟨s, c, hc, hmem⟩ := ht.exists_child h.linked hh hv ha hw hb hlt
      exact absurd hmem (hnone s c hc)
  · obtain ⟨b, hb, -⟩ := h.linked.child ha hc
    have hc' := (mem_takeWhile ht.decreasing hv).mpr ⟨hmem, h.linked.child_gt ha hc⟩
    rw [hgone c hc'] at hb
    cases hb

/-! ## The law -/

/-- The law at a node for the visits, with the counter of the source. -/
structure VisitsConserved (x : Logged) (v : NodeRef) (a : PTreeNode) : Prop where
  surplus : visitCounter a = x.tree.below visitCounter a.left +
    x.tree.below visitCounter a.right + total (fun _ => 1) (surplus v a) x.log
  le : x.tree.below visitCounter a.left + x.tree.below visitCounter a.right ≤ visitCounter a

/-- The law at a node for the rewards. -/
structure RewardsConserved (x : Logged) (v : NodeRef) (a : PTreeNode) : Prop where
  surplus : a.reward = x.tree.below PTreeNode.reward a.left +
    x.tree.below PTreeNode.reward a.right +
    total Backpropagation.reward (surplus v a) x.log
  le : (∀ e ∈ x.log, 0 ≤ e.reward) →
    x.tree.below PTreeNode.reward a.left + x.tree.below PTreeNode.reward a.right ≤ a.reward

theorem rewardsConserved (h : InStep x) (ha : x.tree.nodes v = some a) :
    RewardsConserved x v a := by
  have hreward := h.law ha h.reward
  refine ⟨hreward, fun hpos => ?_⟩
  have hnonneg : 0 ≤ total Backpropagation.reward (surplus v a) x.log := by
    refine List.sum_nonneg fun r hr => ?_
    obtain ⟨e, he, rfl⟩ := List.mem_map.mp hr
    exact hpos e (List.mem_of_mem_filter he)
  rw [hreward]
  exact le_add_of_nonneg_right hnonneg

theorem below_congr [Zero M] {g : PTreeNode → M}
    (h : ∀ c b, ptr.pointer = some c → t.nodes c = some b → f b = g b) :
    t.below f ptr = t.below g ptr := by
  unfold below
  cases hptr : ptr.pointer with
  | none => rfl
  | some c =>
    cases hb : t.nodes c with
    | none => simp [hb]
    | some b => simp [hb, h c b hptr hb]

/-- The counters agree with the counts as long as no child is counted too often. -/
theorem below_visitCounter
    (h : ∀ s c b, (a.child s).pointer = some c → t.nodes c = some b → b.visit < 2 ^ 32) :
    t.below visitCounter a.left + t.below visitCounter a.right =
      t.below PTreeNode.visit a.left + t.below PTreeNode.visit a.right :=
  congrArg₂ _ (below_congr fun c b hc hb => Nat.mod_eq_of_lt (h .left c b hc hb))
    (below_congr fun c b hc hb => Nat.mod_eq_of_lt (h .right c b hc hb))

theorem visitsConserved_of_counted (h : InStep x)
    (hcount : ∀ v a, x.tree.nodes v = some a → a.visit < 2 ^ 32)
    (ha : x.tree.nodes v = some a) : VisitsConserved x v a := by
  have hcounter : visitCounter a = a.visit := Nat.mod_eq_of_lt (hcount v a ha)
  have hvisit := hcounter.trans (h.law ha h.visit)
  rw [← below_visitCounter fun _ c b _ hb => hcount c b hb] at hvisit
  exact ⟨hvisit, by omega⟩

/-- At the lowest node that is counted too often the law fails. -/
theorem counted_of_visitsConserved (h : InStep x)
    (hlaw : ∀ v a, x.tree.nodes v = some a → VisitsConserved x v a)
    (ha : x.tree.nodes v = some a) : a.visit < 2 ^ 32 := by
  -- the children have larger numbers, and all numbers are below the next one
  induction hk : x.tree.nextNode - v using Nat.strong_induction_on generalizing v a with
  | _ k ih =>
    have hbelow : ∀ s c b, (a.child s).pointer = some c → x.tree.nodes c = some b →
        b.visit < 2 ^ 32 := by
      intro s c b hc hb
      have hlt : v < c := h.linked.child_gt ha hc
      have hbound : c < x.tree.nextNode := h.linked.bound hb
      exact ih (x.tree.nextNode - c)
        (by rw [← hk]; exact Nat.sub_lt_sub_left (hlt.trans hbound) hlt) hb rfl
    have hvisit := (hlaw v a ha).surplus
    rw [below_visitCounter hbelow] at hvisit
    have hexact : visitCounter a = a.visit := hvisit.trans (h.law ha h.visit).symm
    rw [← hexact]
    exact Nat.mod_lt _ (Nat.two_pow_pos 32)

/-- All along a run the rewards are conserved, and the visits as long as no node is
visited 2^32 times. A walk counts as surplus at a node just when it came through
removed nodes only. -/
theorem conserved_iff_counted (compressProcessTree : Bool) (initialState : StateRef)
    (ops : List TreeOp) :
    (∀ x, runOps compressProcessTree ⟨.create initialState, []⟩ ops = .ok x →
      (∀ v a, x.tree.nodes v = some a → RewardsConserved x v a) ∧
      ((∀ v a, x.tree.nodes v = some a → VisitsConserved x v a) ↔
        ∀ v a, x.tree.nodes v = some a → total (fun _ => 1) (through v) x.log < 2 ^ 32)) ∧
    (ValidRun compressProcessTree ⟨.create initialState, []⟩ ops →
      ∃ x, runOps compressProcessTree ⟨.create initialState, []⟩ ops = .ok x ∧
        ∀ v a, x.tree.nodes v = some a → ∀ e ∈ x.log, surplus v a e = true ↔
          v ∈ e.path ∧ ∀ w ∈ e.path.takeWhile (· ≠ v), x.tree.nodes w = none) := by
  refine ⟨fun x hrun => ?_, fun hvalid => ?_⟩
  · have h := InStep.create.runOps hrun
    refine ⟨fun v a ha => rewardsConserved h ha, fun hlaw v a ha => ?_, fun hcount => ?_⟩
    · rw [← h.visit ha]
      exact counted_of_visitsConserved h hlaw ha
    · refine fun v a ha => visitsConserved_of_counted h (fun w b hb => ?_) ha
      rw [h.visit hb]
      exact hcount w b hb
  · obtain ⟨x, hrun, hh⟩ := runOps_returns InStep.create hung_create hvalid
    exact ⟨x, hrun, fun v a ha e he => surplus_iff (InStep.create.runOps hrun) hh he ha⟩

/-- One leaf is visited, and the other is removed. -/
theorem conserved_iff_counted_compressed : ∃ x,
    runOps true ⟨.create 0, []⟩ [.fork 0 1 0, .backpropagate 1 1, .remove 2] = .ok x ∧
      x.log = [⟨[1, 0], 1⟩] ∧
      (∀ v a, x.tree.nodes v = some a → VisitsConserved x v a ∧ RewardsConserved x v a) := by
  obtain ⟨x, hx, hlog⟩ := Except.ok_of_any (p := fun x => x.log = [⟨[1, 0], 1⟩])
    (r := runOps true ⟨.create 0, []⟩ [.fork 0 1 0, .backpropagate 1 1, .remove 2])
    (by decide +kernel)
  obtain ⟨hrewards, hvisits⟩ := (conserved_iff_counted true 0 _).1 x hx
  have hcount : ∀ v a, x.tree.nodes v = some a →
      total (fun _ => 1) (through v) x.log < 2 ^ 32 := by
    intro v a _
    have hle := total_one_le (through v) x.log
    rw [hlog] at hle ⊢
    exact hle.trans_lt (by decide)
  exact ⟨x, hx, hlog, fun v a ha => ⟨hvisits.mpr hcount v a ha, hrewards v a ha⟩⟩

/-! ## The counter of a busy node -/

theorem runOps_backpropagate (reward : ℚ) (k : Nat) (h : InStep x) (hh : x.tree.Hung)
    (hc : Climb x.tree n path) :
    ∃ x', runOps false x (List.replicate k (.backpropagate n reward)) = .ok x' ∧
      x'.log = List.replicate k ⟨path, reward⟩ ++ x.log ∧ SameLinks x.tree x'.tree := by
  induction k generalizing x with
  | zero => exact ⟨x, rfl, rfl, .refl⟩
  | succ k ih =>
    obtain ⟨a, ha⟩ := hc.present n hc.start_mem
    have hlt := (h.linked.bound ha).trans (Nat.lt_succ_self _)
    obtain ⟨t1, ht1⟩ := propagateUp_returns reward h.linked hh ha hlt
    obtain ⟨path', hc', hv⟩ := propagateUp_visited h.linked ht1
    obtain rfl : path' = path :=
      (hc'.rootPath_eq h.linked hlt).symm.trans (hc.rootPath_eq h.linked hlt)
    have happly : (TreeOp.backpropagate n reward).apply false x =
        .ok ⟨t1, ⟨path', reward⟩ :: x.log⟩ := by
      refine bind_eq_ok.mpr ⟨t1, ht1, ?_⟩
      rw [hc.rootPath_eq h.linked hlt]
      rfl
    obtain ⟨x', hx', hlog, hlinks⟩ := ih (h.apply happly) (hv.links.hung hh)
      (hc.of_sameLinks hv.links)
    refine ⟨x', ?_, ?_, hv.links.trans hlinks⟩
    · rw [List.replicate_succ, runOps, List.foldlM_cons]
      exact bind_eq_ok.mpr ⟨_, happly, hx'⟩
    · rw [hlog, List.replicate_succ', List.append_assoc]
      rfl

/-- The left leaf of a fork is visited some times, and the right one once. -/
theorem runOps_busy (k : Nat) : ∃ x a b, runOps false ⟨.create 0, []⟩ ([.fork 0 1 0] ++
      (List.replicate k (.backpropagate 1 0) ++ [.backpropagate 2 0])) = .ok x ∧
    x.tree.nodes 0 = some a ∧ a.visit = k + 1 ∧ a.left.pointer = some 1 ∧
    x.tree.nodes 1 = some b ∧ b.visit = k := by
  have hstart : (PTree.create 0).nodes 0 = some (.create none 0) := rfl
  obtain ⟨⟨t1, left, right⟩, hattach⟩ := attach_returns (l := 1) (r := 0)
    linked_create hung_create hstart
  obtain ⟨-, -, a0, ptr, -, ha1⟩ := attach_attached linked_create hattach
  have happly : runOps false ⟨.create 0, []⟩ [.fork 0 1 0] = .ok ⟨t1, []⟩ := by
    refine bind_eq_ok.mpr ⟨⟨t1, []⟩, ?_, rfl⟩
    exact bind_eq_ok.mpr ⟨_, hattach, rfl⟩
  have h1 : InStep ⟨t1, []⟩ := InStep.create.runOps happly
  have heq := ha1.present
  rw [hstart] at heq
  cases heq
  have hh1 : t1.Hung := hung_create.attached linked_create ha1 rfl
  have hroot : Climb t1 0 [0] := .root ha1.forked rfl
  have hclimb1 : Climb t1 1 [1, 0] := .up ha1.left rfl hroot
  have hclimb2 : Climb t1 2 [2, 0] := .up ha1.right rfl hroot
  obtain ⟨x2, hrun2, hlog2, hlinks2⟩ := runOps_backpropagate 0 k h1 hh1 hclimb1
  have h2 := h1.runOps hrun2
  obtain ⟨x, hrun3, hlog3, hlinks3⟩ := runOps_backpropagate 0 1 h2
    (hlinks2.hung hh1) (hclimb2.of_sameLinks hlinks2)
  have h := h2.runOps hrun3
  have hlinks := hlinks2.trans hlinks3
  obtain ⟨a, ha, -, hptr⟩ := hlinks.symm.nodes ha1.forked
  obtain ⟨b, hb⟩ := hlinks.present ha1.left
  refine ⟨x, a, b, ?_, ha, ?_, (hptr .left).symm, hb, ?_⟩
  · unfold runOps
    rw [List.foldlM_append]
    refine bind_eq_ok.mpr ⟨_, happly, ?_⟩
    rw [List.foldlM_append]
    exact bind_eq_ok.mpr ⟨_, hrun2, hrun3⟩
  · rw [h.visit ha, hlog3, hlog2, total_one_replicate, total_one_replicate]
    exact Nat.add_comm 1 k
  · rw [h.visit hb, hlog3, hlog2, total_one_replicate, total_one_replicate]
    exact Nat.zero_add k

/-- The left leaf is visited once less than the counter has values: the counter of
the root is back at zero. -/
theorem runOps_counter_wraps : ∃ x a,
    runOps false ⟨.create 0, []⟩ ([.fork 0 1 0] ++
      (List.replicate (2 ^ 32 - 1) (.backpropagate 1 0) ++ [.backpropagate 2 0])) = .ok x ∧
    x.tree.nodes 0 = some a ∧ visitCounter a = 0 ∧
    x.tree.below visitCounter a.left = 2 ^ 32 - 1 ∧ ¬VisitsConserved x 0 a := by
  obtain ⟨x, a, b, hrun, ha, hvisit, hptr, hb, hvisit'⟩ := runOps_busy (2 ^ 32 - 1)
  have hzero : visitCounter a = 0 := by
    unfold visitCounter
    omega
  have hleft : x.tree.below visitCounter a.left = 2 ^ 32 - 1 := by
    unfold below
    rw [hptr, Option.bind_some, hb, Option.map_some, Option.getD_some]
    unfold visitCounter
    omega
  refine ⟨x, a, hrun, ha, hzero, hleft, fun hlaw => ?_⟩
  have hle := hlaw.le
  rw [hzero, hleft] at hle
  omega

end VitalSE.PTree
