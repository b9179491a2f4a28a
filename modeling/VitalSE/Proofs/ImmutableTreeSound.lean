import VitalSE.ADT.ImmutableTree
import VitalSE.Lib.BalancedTree

/-!
# Persistent trees are height-balanced maps

A reference represents a tree if the nodes below it are those of the tree. The
operations are followed once, on the nodes: from references that represent trees
they make one that represents the result of the pure operation, with every
count right for what the client then owns. What the pure operations do to the
values and to the heights is known of height-balanced trees in general.

A node is never written to, so a version can only be damaged by a node that is
freed too early. The counts exclude that: all the client owns, and all that is
reached from there, stays.
-/

namespace VitalSE.ImmutableTrees

open RefCount ImmutableNode

variable {K V α : Type} [Inhabited V] {owned : Multiset Ref} {h h' : Heap (ImmutableNode V)}
  {p q : Ref × BalancedTree V} {t t' tl tr : BalancedTree V}
  {Q : α → Heap (ImmutableNode V) → Prop} {r n : Ref} {ts ts' : List (Ref × BalancedTree V)}

/-- The nodes below the reference are those of the tree. -/
inductive Represents (h : Heap (ImmutableNode V)) : Ref → BalancedTree V → Prop
  | empty : h.content terminator = some terminatorNode →
      Represents h terminator .empty
  | node {n l r : Ref} {v : V} {height : Nat} {tl tr : BalancedTree V} :
      n ≠ terminator → h.content n = some ⟨l, r, v, height⟩ → Represents h l tl →
      Represents h r tr → Represents h n (.node tl v tr height)

namespace Represents

theorem grows (hg : Grows h h') (hn : Represents h n t) : Represents h' n t := by
  induction hn with
  | empty hc => exact .empty (hg _ _ hc)
  | node hne hc _ _ ihl ihr => exact .node hne (hg _ _ hc) ihl ihr

/-- What is reached from the references kept still represents its tree. -/
theorem later {all all' : Multiset Ref} (hl : Later h h') (hc : Counted children h all)
    (hc' : Counted children h' all') (hle : owned ≤ all') (hn : Represents h n t)
    (hheld : Held children h owned n) : Represents h' n t := by
  have hlive : ∀ {m : Ref}, Held children h owned m → h'.Live m := fun hm =>
    ((hm.later hl hc hc' hle).mono hle).live hc'
  induction hn with
  | empty hcontent =>
    exact .empty (Held.content_eq hl hc hcontent (hlive hheld))
  | node hne hcontent _ _ ihl ihr =>
    refine .node hne (Held.content_eq hl hc hcontent (hlive hheld)) (ihl ?_) (ihr ?_)
    · exact .kid hheld hcontent (by simp [children])
    · exact .kid hheld hcontent (by simp [children])

theorem content (hn : Represents h n t) : ∃ c, h.content n = some c ∧ c.height = t.height := by
  cases hn with
  | empty hc => exact ⟨_, hc, rfl⟩
  | node _ hc _ _ => exact ⟨_, hc, rfl⟩

theorem live (hn : Represents h n t) : h.Live n := by
  obtain ⟨c, hc, -⟩ := hn.content
  exact Heap.live_iff.mpr ⟨c, hc⟩

theorem terminator_live (hn : Represents h n t) : h.Live terminator := by
  induction hn with
  | empty hc => exact Heap.live_iff.mpr ⟨_, hc⟩
  | node _ _ _ _ ihl _ => exact ihl

end Represents

/-! ## References that are held

While an operation runs, the client owns what it owned before, and beside it the
references that were made on the way; each of these represents a tree. -/

/-- The heap holds the trees `ts`, and every reference is counted. -/
structure Holds (h : Heap (ImmutableNode V)) (ts : List (Ref × BalancedTree V))
    (owned : Multiset Ref) : Prop where
  counted : Counted children h (↑(ts.map Prod.fst) + owned)
  represents : ∀ p ∈ ts, Represents h p.1 p.2

/-- The heap has more nodes or the same. -/
def Adds (h h' : Heap (ImmutableNode V)) : Prop := Grows h h' ∧ Later h h'

omit [Inhabited V] in
theorem Adds.of_content (hc : h'.content = h.content) (hn : h'.next = h.next) : Adds h h' := by
  refine ⟨fun r c hr => ?_, ⟨le_of_eq hn.symm, fun r _ => .inr ?_⟩⟩
  · rw [hc]
    exact hr
  · rw [hc]

section Steps

variable {l : Ref} {v : V}

theorem Holds.perm (hp : ts.Perm ts') (hh : Holds h ts owned) : Holds h ts' owned := by
  refine ⟨?_, fun p hmem => hh.represents p (hp.mem_iff.mpr hmem)⟩
  rw [← Multiset.coe_eq_coe.mpr (hp.map Prod.fst)]
  exact hh.counted

theorem Holds.swap (hh : Holds h (p :: q :: ts) owned) : Holds h (q :: p :: ts) owned :=
  hh.perm (.swap q p ts)

theorem incref_holds (hh : Holds h ts owned) (hn : Represents h n t) :
    Runs (incref n) h fun n' h' => n = n' ∧ Holds h' ((n, t) :: ts) owned ∧ Adds h h' := by
  refine (incref_runs children hh.counted hn.live).imp ?_
  rintro _ h' ⟨rfl, hc, hcontent, hnext⟩
  have hadds := Adds.of_content hcontent hnext
  refine ⟨rfl, ⟨?_, ?_⟩, hadds⟩
  · rw [List.map_cons, ← Multiset.cons_coe, Multiset.cons_add]
    exact hc
  · intro p hp
    rcases List.mem_cons.mp hp with rfl | hp
    · exact hn.grows hadds.1
    · exact (hh.represents p hp).grows hadds.1

theorem newNode_holds (hh : Holds h ((l, tl) :: (r, tr) :: ts) owned) :
    Runs (TreeM.newNode l r v) h fun n h' =>
      Holds h' ((n, .join tl v tr) :: ts) owned ∧ Adds h h' := by
  have hl := hh.represents (l, tl) (by simp)
  have hr := hh.represents (r, tr) (by simp)
  obtain ⟨cl, hcl, hhl⟩ := hl.content
  obtain ⟨cr, hcr, hhr⟩ := hr.content
  refine read_bind hcl ?_
  refine read_bind hcr ?_
  have hc : Counted children h
      (↑(children ⟨l, r, v, max cl.height cr.height + 1⟩) + (↑(ts.map Prod.fst) + owned)) := by
    rw [← add_assoc]
    exact hh.counted
  refine (alloc_runs children hc).imp ?_
  rintro n h' ⟨rfl, hc', hcontent, hg, hlater⟩
  refine ⟨⟨?_, ?_⟩, hg, hlater⟩
  · rw [List.map_cons, ← Multiset.cons_coe, Multiset.cons_add]
    exact hc'
  · intro p hp
    rcases List.mem_cons.mp hp with rfl | hp
    · rw [hhl, hhr] at hcontent
      refine .node ?_ hcontent (hl.grows hg) (hr.grows hg)
      exact ne_of_gt (hh.counted.lt_next hl.terminator_live)
    · exact (hh.represents p (by simp [hp])).grows hg

theorem decref_holds (hh : Holds h ((n, t) :: ts) owned) :
    Runs (TreeM.decref n) h fun _ h' => Holds h' ts owned ∧ Later h h' := by
  have hc := hh.counted
  rw [List.map_cons, ← Multiset.cons_coe, Multiset.cons_add] at hc
  refine (decref_runs children hc).imp ?_
  rintro _ h' ⟨hc', hlater⟩
  refine ⟨⟨hc', fun p hp => ?_⟩, hlater⟩
  refine (hh.represents p (by simp [hp])).later hlater hc hc' (le_refl _) (.owned ?_)
  exact Multiset.mem_add.mpr (.inl (List.mem_map_of_mem hp))

/-! Both rotations read the side that is too high, share its subtrees and give it
up at the end. Up to there nodes are only added. -/

/-- What is held after nodes have been added to the heap `h0`. -/
structure Adding (h0 h : Heap (ImmutableNode V)) (ts : List (Ref × BalancedTree V))
    (owned : Multiset Ref) : Prop where
  holds : Holds h ts owned
  adds : Adds h0 h

namespace Adding

variable {h0 : Heap (ImmutableNode V)} {f : Ref → TreeM V α}

theorem perm (hp : ts.Perm ts') (hh : Adding h0 h ts owned) : Adding h0 h ts' owned :=
  ⟨hh.holds.perm hp, hh.adds⟩

theorem swap (hh : Adding h0 h (p :: q :: ts) owned) : Adding h0 h (q :: p :: ts) owned :=
  hh.perm (.swap q p ts)

theorem incref (hh : Adding h0 h ts owned) (hn : Represents h0 n t)
    (hf : ∀ h', Adding h0 h' ((n, t) :: ts) owned → Runs (f n) h' Q) :
    Runs (RefCount.incref n >>= f) h Q := by
  refine .bind (incref_holds hh.holds (hn.grows hh.adds.1)) ?_
  intro _ h' ⟨heq, hh', hg, hl⟩
  rw [← heq]
  exact hf h' ⟨hh', hh.adds.1.trans hg, hh.adds.2.trans hl⟩

theorem newNode (hh : Adding h0 h ((l, tl) :: (r, tr) :: ts) owned)
    (hf : ∀ n h', Adding h0 h' ((n, .join tl v tr) :: ts) owned → Runs (f n) h' Q) :
    Runs (TreeM.newNode l r v >>= f) h Q := by
  refine .bind (newNode_holds hh.holds) ?_
  intro n h' ⟨hh', hg, hl⟩
  exact hf n h' ⟨hh', hh.adds.1.trans hg, hh.adds.2.trans hl⟩

theorem giveUp {res : Ref} (hh : Adding h0 h ((res, t') :: (n, t) :: ts) owned) :
    Runs (do TreeM.decref n; pure res) h fun res h' =>
      Holds h' ((res, t') :: ts) owned ∧ Later h0 h' := by
  refine .bind (decref_holds hh.holds.swap) ?_
  intro _ h' ⟨hh', hl⟩
  exact .pure ⟨hh', hh.adds.2.trans hl⟩

end Adding

section

variable (hh : Holds h ((l, tl) :: (r, tr) :: ts) owned)

include hh

theorem rotateRight_holds (hhigh : tr.height + 2 < tl.height) :
    Runs (TreeM.balance l v r) h fun n h' =>
      Holds h' ((n, .rotateRight v tr tl) :: ts) owned ∧ Later h h' := by
  have hadding : Adding h h _ owned := ⟨hh, Adds.of_content rfl rfl⟩
  have hl := hh.represents (l, tl) (by simp)
  obtain ⟨cr, hcr, hhr⟩ := (hh.represents (r, tr) (by simp)).content
  cases hl with
  | empty _ => exact absurd hhigh (by simp [BalancedTree.height])
  | @node _ ll lr lv height tll tlr hne hcl hll hlr =>
    obtain ⟨cll, hcll, hhll⟩ := hll.content
    obtain ⟨clr, hclr, hhlr⟩ := hlr.content
    refine read_bind hcl (read_bind hcr ?_)
    rw [if_pos (by rw [hhr]; exact hhigh)]
    refine read_bind hcll (read_bind hclr ?_)
    by_cases hsingle : tlr.height ≤ tll.height
    · rw [if_pos (by rw [hhll, hhlr]; exact hsingle),
        BalancedTree.rotateRight_single hsingle]
      refine hadding.incref hlr fun h1 hh1 => ?_
      refine (hh1.perm (.cons _ (.swap ..))).newNode fun nlr h2 hh2 => ?_
      refine hh2.incref hll fun h3 hh3 => ?_
      exact hh3.newNode fun res h4 hh4 => hh4.giveUp
    · rw [if_neg (by rw [hhll, hhlr]; exact hsingle)]
      cases hlr with
      | empty _ => exact absurd (Nat.zero_le _) hsingle
      | @node _ lrl lrr lrv height' tlrl tlrr hne' hclr' hlrl hlrr =>
        rw [BalancedTree.rotateRight_double hsingle]
        refine read_bind hclr' (hadding.incref hll fun h1 hh1 => ?_)
        refine hh1.incref hlrl fun h2 hh2 => ?_
        refine hh2.swap.newNode fun nll h3 hh3 => ?_
        refine hh3.incref hlrr fun h4 hh4 => ?_
        refine (hh4.perm (.cons _ ((List.Perm.cons _ (.swap ..)).trans (.swap ..)))).newNode
          fun nlr h5 hh5 => ?_
        exact hh5.swap.newNode fun res h6 hh6 => hh6.giveUp

theorem rotateLeft_holds (hhigh : tl.height + 2 < tr.height) :
    Runs (TreeM.balance l v r) h fun n h' =>
      Holds h' ((n, .rotateLeft tl v tr) :: ts) owned ∧ Later h h' := by
  have hadding : Adding h h _ owned := ⟨hh, Adds.of_content rfl rfl⟩
  have hr := hh.represents (r, tr) (by simp)
  obtain ⟨cl, hcl, hhl⟩ := (hh.represents (l, tl) (by simp)).content
  cases hr with
  | empty _ => exact absurd hhigh (by simp [BalancedTree.height])
  | @node _ rl rr rv height trl trr hne hcr hrl hrr =>
    obtain ⟨crl, hcrl, hhrl⟩ := hrl.content
    obtain ⟨crr, hcrr, hhrr⟩ := hrr.content
    have hhigh' : cl.height + 2 < height := by
      rw [hhl]
      exact hhigh
    refine read_bind hcl (read_bind hcr ?_)
    rw [if_neg (by show ¬ height + 2 < cl.height; omega), if_pos hhigh']
    refine read_bind hcrr (read_bind hcrl ?_)
    by_cases hsingle : trl.height ≤ trr.height
    · rw [if_pos (by rw [hhrl, hhrr]; exact hsingle),
        BalancedTree.rotateLeft_single hsingle]
      refine hadding.incref hrl fun h1 hh1 => ?_
      refine hh1.swap.newNode fun nrl h2 hh2 => ?_
      refine hh2.incref hrr fun h3 hh3 => ?_
      exact hh3.swap.newNode fun res h4 hh4 => hh4.giveUp
    · rw [if_neg (by rw [hhrl, hhrr]; exact hsingle)]
      cases hrl with
      | empty _ => exact absurd (Nat.zero_le _) hsingle
      | @node _ rll rlr rlv height' trll trlr hne' hcrl' hrll hrlr =>
        rw [BalancedTree.rotateLeft_double hsingle]
        refine read_bind hcrl' (hadding.incref hrll fun h1 hh1 => ?_)
        refine hh1.swap.newNode fun nrl h2 hh2 => ?_
        refine hh2.incref hrlr fun h3 hh3 => ?_
        refine hh3.incref hrr fun h4 hh4 => ?_
        refine hh4.swap.newNode fun nrr h5 hh5 => ?_
        exact hh5.swap.newNode fun res h6 hh6 => hh6.giveUp

theorem balance_holds : Runs (TreeM.balance l v r) h fun n h' =>
      Holds h' ((n, .balance tl v tr) :: ts) owned ∧ Later h h' := by
  unfold BalancedTree.balance
  split
  · next hhigh => exact rotateRight_holds hh hhigh
  · next hlow =>
    split
    · next hhigh => exact rotateLeft_holds hh hhigh
    · next hlow' =>
      obtain ⟨cl, hcl, hhl⟩ := (hh.represents (l, tl) (by simp)).content
      obtain ⟨cr, hcr, hhr⟩ := (hh.represents (r, tr) (by simp)).content
      refine read_bind hcl ?_
      refine read_bind hcr ?_
      rw [if_neg (by rw [hhl, hhr]; exact hlow), if_neg (by rw [hhl, hhr]; exact hlow')]
      exact (newNode_holds hh).imp fun _ _ ⟨hh', _, hl'⟩ => ⟨hh', hl'⟩

end

end Steps

/-! ## Operations that copy a path

An operation borrows a tree that the client keeps alive, and makes a reference
to the changed tree. -/

/-- A tree that is reached from what is held. -/
def Borrowed (h : Heap (ImmutableNode V)) (ts : List (Ref × BalancedTree V))
    (owned : Multiset Ref) (n : Ref) (t : BalancedTree V) : Prop :=
  Held children h (↑(ts.map Prod.fst) + owned) n ∧ Represents h n t

/-- The operation on the tree at the reference makes the tree `t'`. -/
def Copies (op : TreeM V Ref) (n : Ref) (t t' : BalancedTree V) : Prop :=
  ∀ (h : Heap (ImmutableNode V)) (ts : List (Ref × BalancedTree V)) (owned : Multiset Ref),
    Holds h ts owned → Borrowed h ts owned n t →
      Runs op h fun res h' => Holds h' ((res, t') :: ts) owned ∧ Later h h'

section Copies

variable {l : Ref} {tl' tr' : BalancedTree V} {v : V} {height : Nat} {op1 op2 : TreeM V Ref}

theorem Borrowed.node (hb : Borrowed h ts owned n (.node tl v tr height)) :
    ∃ l r, n ≠ terminator ∧ h.content n = some ⟨l, r, v, height⟩ ∧
      Borrowed h ts owned l tl ∧ Borrowed h ts owned r tr := by
  obtain ⟨hheld, hn⟩ := hb
  cases hn with
  | @node _ l r _ _ _ _ hne hc hl hr =>
    exact ⟨l, r, hne, hc, ⟨.kid hheld hc (by simp [children]), hl⟩,
      ⟨.kid hheld hc (by simp [children]), hr⟩⟩

/-- A step that adds a reference to what is held ends no loan. -/
theorem Borrowed.later (hb : Borrowed h ts owned n t) (hh : Holds h ts owned)
    (hh' : Holds h' (p :: ts) owned) (hl : Later h h') : Borrowed h' (p :: ts) owned n t := by
  have hle : (↑(ts.map Prod.fst) + owned : Multiset Ref) ≤
      ↑((p :: ts).map Prod.fst) + owned := by
    rw [List.map_cons, ← Multiset.cons_coe, Multiset.cons_add]
    exact Multiset.le_cons_self _ _
  exact ⟨(hb.1.later hl hh.counted hh'.counted hle).mono hle,
    hb.2.later hl hh.counted hh'.counted hle hb.1⟩

theorem incref_copies (n : Ref) (t : BalancedTree V) : Copies (incref n) n t t := by
  intro h ts owned hh hb
  refine (incref_holds hh hb.2).imp ?_
  rintro _ h' ⟨rfl, hh', -, hl⟩
  exact ⟨hh', hl⟩

section

variable (h1 : Copies op1 l tl tl') (h2 : Copies op2 r tr tr') (hh : Holds h ts owned)
  (hl : Borrowed h ts owned l tl) (hr : Borrowed h ts owned r tr)

include h1 h2 hh hl hr

/-- Two copies side by side. -/
theorem Copies.pair {f : Ref → Ref → TreeM V α}
    (hf : ∀ l' r' h', Holds h' ((l', tl') :: (r', tr') :: ts) owned → Later h h' →
      Runs (f l' r') h' Q) : Runs (op1 >>= fun l' => op2 >>= fun r' => f l' r') h Q := by
  refine .bind (h1 h ts owned hh hl) fun l' h' ⟨hh', hlater⟩ => ?_
  refine .bind (h2 h' _ owned hh' (hr.later hh hh' hlater)) fun r' h'' ⟨hh'', hlater'⟩ => ?_
  exact hf l' r' h'' hh''.swap (hlater.trans hlater')

theorem balance_copies :
    Runs (do TreeM.balance (← op1) v (← op2)) h fun n h' =>
      Holds h' ((n, .balance tl' v tr') :: ts) owned ∧ Later h h' :=
  h1.pair h2 hh hl hr fun _ _ _ hh' hlater =>
    (balance_holds hh').imp fun _ _ ⟨hh'', hlater'⟩ => ⟨hh'', hlater.trans hlater'⟩

theorem newNode_copies :
    Runs (do TreeM.newNode (← op1) (← op2) v) h fun n h' =>
      Holds h' ((n, .join tl' v tr') :: ts) owned ∧ Later h h' :=
  h1.pair h2 hh hl hr fun _ _ _ hh' hlater =>
    (newNode_holds hh').imp fun _ _ ⟨hh'', _, hlater'⟩ => ⟨hh'', hlater.trans hlater'⟩

end

theorem isTerminator_empty (hn : Represents h n .empty) : isTerminator n = true := by
  cases hn with
  | empty _ => rfl

theorem isTerminator_node (hn : Represents h n (.node tl v tr height)) :
    isTerminator n = false := by
  cases hn with
  | node hne _ _ _ => exact beq_false_of_ne hne

/-- The operation on the tree at the reference gives a value and makes a tree. -/
def Pops (op : TreeM V (V × Ref)) (n : Ref) (t : BalancedTree V)
    (out : V × BalancedTree V) : Prop :=
  ∀ (h : Heap (ImmutableNode V)) (ts : List (Ref × BalancedTree V)) (owned : Multiset Ref),
    Holds h ts owned → Borrowed h ts owned n t →
      Runs op h fun p h' => p.1 = out.1 ∧ Holds h' ((p.2, out.2) :: ts) owned ∧ Later h h'

theorem incref_pops (v : V) (n : Ref) (t : BalancedTree V) :
    Pops (do return (v, ← incref n)) n t (v, t) := by
  intro h ts owned hh hb
  refine .bind (incref_copies n t h ts owned hh hb) ?_
  intro res h' hres
  exact .pure ⟨rfl, hres⟩

theorem popMin_pops (fuel : Nat) : ∀ (t : BalancedTree V) (n : Ref), t.Balanced →
    t.height < fuel → Pops (TreeM.popMin fuel n) n t t.popMin := by
  induction fuel with
  | zero =>
    intro t n _ hfuel
    exact absurd hfuel (Nat.not_lt_zero _)
  | succ fuel ih =>
    intro t n hbal hfuel h ts owned hh hb
    cases t with
    | empty =>
      -- the terminator is its own left and right child
      have hn := hb.2
      cases hn with
      | empty hc => exact read_bind hc (incref_pops _ _ _ h ts owned hh hb)
    | node tl v tr height =>
      obtain ⟨l, r, hne, hc, hl, hr⟩ := hb.node
      refine read_bind hc ?_
      cases tl with
      | empty =>
        rw [if_pos (isTerminator_empty hl.2)]
        exact incref_pops v r tr h ts owned hh hr
      | node tll lv tlr height' =>
        rw [if_neg (by rw [isTerminator_node hl.2]; decide)]
        obtain ⟨⟨hbl, -⟩, hheight, -, -⟩ := hbal
        rw [BalancedTree.height_node] at hfuel
        refine .bind (ih _ l hbl (by omega) h ts owned hh hl) ?_
        rintro ⟨first, l'⟩ h1 ⟨hfirst, hh1, hl1⟩
        refine .bind (incref_copies r tr h1 _ owned hh1 (hr.later hh hh1 hl1)) ?_
        rintro r' h2 ⟨hh2, hl2⟩
        refine .bind (balance_holds hh2.swap) ?_
        rintro res h3 ⟨hh3, hl3⟩
        exact .pure ⟨hfirst, hh3, (hl1.trans hl2).trans hl3⟩

theorem popMax_pops (fuel : Nat) : ∀ (t : BalancedTree V) (n : Ref), t.Balanced →
    t.height < fuel → Pops (TreeM.popMax fuel n) n t t.popMax := by
  induction fuel with
  | zero =>
    intro t n _ hfuel
    exact absurd hfuel (Nat.not_lt_zero _)
  | succ fuel ih =>
    intro t n hbal hfuel h ts owned hh hb
    cases t with
    | empty =>
      have hn := hb.2
      cases hn with
      | empty hc => exact read_bind hc (incref_pops _ _ _ h ts owned hh hb)
    | node tl v tr height =>
      obtain ⟨l, r, hne, hc, hl, hr⟩ := hb.node
      refine read_bind hc ?_
      cases tr with
      | empty =>
        rw [if_pos (isTerminator_empty hr.2)]
        exact incref_pops v l tl h ts owned hh hl
      | node trl rv trr height' =>
        rw [if_neg (by rw [isTerminator_node hr.2]; decide)]
        obtain ⟨⟨-, hbr⟩, hheight, -, -⟩ := hbal
        rw [BalancedTree.height_node] at hfuel
        refine .bind (ih _ r hbr (by omega) h ts owned hh hr) ?_
        rintro ⟨last, r'⟩ h1 ⟨hlast, hh1, hl1⟩
        refine .bind (incref_copies l tl h1 _ owned hh1 (hl.later hh hh1 hl1)) ?_
        rintro l' h2 ⟨hh2, hl2⟩
        refine .bind (balance_holds hh2) ?_
        rintro res h3 ⟨hh3, hl3⟩
        exact .pure ⟨hlast, hh3, (hl1.trans hl2).trans hl3⟩

variable (key_compare : K → K → Bool) (key_of_value : V → K)

/-- The two operations that go to the place of a value differ only in what they
do when they find one. -/
theorem update_copies {op : Nat → Ref → TreeM V Ref}
    (atNode : Ref → ImmutableNode V → TreeM V Ref)
    {found : BalancedTree V → V → BalancedTree V → Nat → BalancedTree V}
    (hop : ∀ fuel n, op (fuel + 1) n = do
      if isTerminator n then
        TreeM.newNode (← incref terminator) (← incref terminator) v
      else
        let node ← read n
        if key_compare (key_of_value v) (key_of_value node.value) then
          TreeM.balance (← op fuel node.left) node.value (← incref node.right)
        else if key_compare (key_of_value node.value) (key_of_value v) then
          TreeM.balance (← incref node.left) node.value (← op fuel node.right)
        else atNode n node)
    (hfound : ∀ n l r x height tl tr h ts owned, Holds h ts owned →
      Borrowed h ts owned n (.node tl x tr height) → Borrowed h ts owned l tl →
      Borrowed h ts owned r tr →
        Runs (atNode n ⟨l, r, x, height⟩) h fun res h' =>
          Holds h' ((res, found tl x tr height) :: ts) owned ∧ Later h h')
    (fuel : Nat) : ∀ (t : BalancedTree V) (n : Ref), t.Balanced → t.height < fuel →
      Copies (op fuel n) n t (t.update key_compare key_of_value v found) := by
  induction fuel with
  | zero =>
    intro t n _ hfuel
    exact absurd hfuel (Nat.not_lt_zero _)
  | succ fuel ih =>
    intro t n hbal hfuel h ts owned hh hb
    rw [hop]
    cases t with
    | empty =>
      have hn := hb.2
      cases hn with
      | empty hc =>
        exact newNode_copies (incref_copies _ .empty) (incref_copies _ .empty) hh hb hb
    | node tl x tr height =>
      obtain ⟨l, r, hne, hc, hl, hr⟩ := hb.node
      obtain ⟨⟨hbl, hbr⟩, hheight, -, -⟩ := hbal
      rw [BalancedTree.height_node] at hfuel
      rw [if_neg (by rw [isTerminator_node hb.2]; decide)]
      refine read_bind hc ?_
      unfold BalancedTree.update
      dsimp only
      split
      · exact balance_copies (ih tl l hbl (by omega)) (incref_copies r tr) hh hl hr
      · split
        · exact balance_copies (incref_copies l tl) (ih tr r hbr (by omega)) hh hl hr
        · exact hfound n l r x height tl tr h ts owned hh hb hl hr

theorem insert_copies (v : V) (fuel : Nat) (t : BalancedTree V) (n : Ref)
    (hb : t.Balanced) (hfuel : t.height < fuel) :
    Copies (TreeM.insert key_compare key_of_value v fuel n) n t
      (t.insert key_compare key_of_value v) := by
  refine update_copies key_compare key_of_value (fun n _ => incref n) (fun _ _ => rfl) ?_
    fuel t n hb hfuel
  intro n l r x height tl tr h ts owned hh hb _ _
  exact incref_copies n _ h ts owned hh hb

theorem replace_copies (v : V) (fuel : Nat) (t : BalancedTree V) (n : Ref)
    (hb : t.Balanced) (hfuel : t.height < fuel) :
    Copies (TreeM.replace key_compare key_of_value v fuel n) n t
      (t.replace key_compare key_of_value v) := by
  refine update_copies key_compare key_of_value _ (fun _ _ => rfl) ?_ fuel t n hb hfuel
  intro n l r x height tl tr h ts owned hh _ hl hr
  exact newNode_copies (incref_copies l tl) (incref_copies r tr) hh hl hr

theorem remove_copies (k : K) (fuel : Nat) : ∀ (t : BalancedTree V) (n : Ref),
    t.Balanced → t.height < fuel → Copies (TreeM.remove key_compare key_of_value k fuel n) n t
        (t.remove key_compare key_of_value k) := by
  induction fuel with
  | zero =>
    intro t n _ hfuel
    exact absurd hfuel (Nat.not_lt_zero _)
  | succ fuel ih =>
    intro t n hbal hfuel h ts owned hh hb
    unfold TreeM.remove
    cases t with
    | empty =>
      rw [if_pos (isTerminator_empty hb.2)]
      exact incref_copies n .empty h ts owned hh hb
    | node tl x tr height =>
      obtain ⟨l, r, hne, hc, hl, hr⟩ := hb.node
      obtain ⟨⟨hbl, hbr⟩, hheight, -, -⟩ := hbal
      rw [BalancedTree.height_node] at hfuel
      rw [if_neg (by rw [isTerminator_node hb.2]; decide)]
      refine read_bind hc ?_
      unfold BalancedTree.remove
      dsimp only
      split
      · exact balance_copies (ih tl l hbl (by omega)) (incref_copies r tr) hh hl hr
      · split
        · exact balance_copies (incref_copies l tl) (ih tr r hbr (by omega)) hh hl hr
        · cases tl with
          | empty =>
            rw [if_pos (isTerminator_empty hl.2)]
            exact incref_copies r tr h ts owned hh hr
          | node tll lv tlr hl' =>
            rw [if_neg (by rw [isTerminator_node hl.2]; decide)]
            cases tr with
            | empty =>
              rw [if_pos (isTerminator_empty hr.2)]
              exact incref_copies l _ h ts owned hh hl
            | node trl rv trr hr' =>
              rw [if_neg (by rw [isTerminator_node hr.2]; decide)]
              refine .bind (popMin_pops fuel _ r hbr (by omega) h ts owned hh hr) ?_
              rintro ⟨min, r'⟩ h1 ⟨rfl, hh1, hl1⟩
              refine .bind (incref_copies l _ h1 _ owned hh1 (hl.later hh hh1 hl1)) ?_
              rintro l' h2 ⟨hh2, hl2⟩
              refine (balance_holds hh2).imp ?_
              rintro res h3 ⟨hh3, hl3⟩
              exact ⟨hh3, (hl1.trans hl2).trans hl3⟩

end Copies

/-! ## Every version, after any run

Beside the run goes a client that keeps a sorted list for each version. -/

/-- The versions as sorted lists, and the values that were popped. -/
structure ReferenceMaps (V : Type) where
  versions : List (List V)
  popped : List V

namespace ReferenceMaps

/-- One empty version. -/
def create : ReferenceMaps V := ⟨[[]], []⟩

/-- A new version, made from version `i`. -/
def add (m : ReferenceMaps V) (i : Nat) (f : List V → List V) : ReferenceMaps V :=
  { m with versions := m.versions ++ (m.versions[i]?.map f).toList }

/-- A value of version `i` is popped. -/
def give (m : ReferenceMaps V) (i : Nat) (f : List V → V) : ReferenceMaps V :=
  { m with popped := m.popped ++ (m.versions[i]?.map f).toList }

variable (key_compare : K → K → Bool) (key_of_value : V → K)

/-- What the call does to lists: an operation adds a version and leaves the
others alone. -/
def step (m : ReferenceMaps V) : TreeOp K V → ReferenceMaps V
  | .insert i v => m.add i (SortedList.insert key_compare key_of_value v)
  | .replace i v => m.add i (SortedList.replace key_compare key_of_value v)
  | .remove i k => m.add i (SortedList.remove key_compare key_of_value k)
  | .popMin i => (m.give i (·.headD default)).add i List.tail
  | .popMax i => (m.give i (·.getLastD default)).add i List.dropLast
  | .copy i => m.add i id
  | .destroy i => { m with versions := m.versions.eraseIdx i }

/-- A run of operations. -/
def run (ops : List (TreeOp K V)) : ReferenceMaps V :=
  ops.foldl (step key_compare key_of_value) create

end ReferenceMaps

/-- The versions represent balanced search trees with the values of the lists. -/
structure Tracks (key_compare : K → K → Bool) (key_of_value : V → K)
    (s : ImmutableTrees V) (m : ReferenceMaps V) (ts : List (Ref × BalancedTree V)) :
    Prop where
  versions : ts.map Prod.fst = s.versions
  holds : Holds s.heap ts {terminator}
  balanced : ∀ p ∈ ts, p.2.Balanced
  sorted : ∀ p ∈ ts, p.2.Sorted key_compare key_of_value
  lists : ts.map (fun p => p.2.toList) = m.versions
  popped : s.popped = m.popped

section Run

variable {key_compare : K → K → Bool} {key_of_value : V → K} {s : ImmutableTrees V}
  {m : ReferenceMaps V} {i : Nat} {f : List V → List V}

/-- The call returns, and the versions still follow the lists. -/
def StepsTo (key_compare : K → K → Bool) (key_of_value : V → K) (s : ImmutableTrees V)
    (r : Except Fault (ImmutableTrees V)) (m : ReferenceMaps V) : Prop :=
  ∃ s' ts', r = .ok s' ∧ Tracks key_compare key_of_value s' m ts' ∧ Later s.heap s'.heap

theorem fuel_runs (hn : Represents s.heap n t) {f : Nat → TreeM V α}
    (hf : Runs (f (t.height + 1)) s.heap Q) :
    Runs (do f (← ImmutableTrees.fuel n)) s.heap Q := by
  obtain ⟨c, hc, hheight⟩ := hn.content
  refine .bind (.bind (read_runs hc) ?_) fun fuel h' (heq : t.height + 1 = fuel ∧ s.heap = h') => ?_
  · rintro _ _ ⟨rfl, rfl⟩
    exact .pure ⟨by rw [hheight], rfl⟩
  · obtain ⟨rfl, rfl⟩ := heq
    exact hf

section Step

variable (htr : Tracks key_compare key_of_value s m ts) (hi : ts[i]? = some (n, t))
include htr hi

theorem Tracks.borrowed : Borrowed s.heap ts {terminator} n t := by
  have hmem := List.mem_of_getElem? hi
  refine ⟨.owned (Multiset.mem_add.mpr (.inl ?_)), htr.holds.represents _ hmem⟩
  exact List.mem_map.mpr ⟨_, hmem, rfl⟩

theorem Tracks.list : m.versions[i]? = some t.toList := by
  rw [← htr.lists, List.getElem?_map, hi]
  rfl

variable (hs : SortedList.Sorted key_compare key_of_value (f t.toList))
include hs

/-- A version more, after an operation that made it. -/
theorem Tracks.add {res : Ref} {popped : List V}
    (hh : Holds h' ((res, t') :: ts) {terminator}) (hb : t'.Balanced)
    (hf : t'.toList = f t.toList) (hp : popped = m.popped) :
    Tracks key_compare key_of_value ⟨h', s.versions ++ [res], popped⟩ (m.add i f)
      (ts ++ [(res, t')]) := by
  have hperm : ([(res, t')] ++ ts).Perm (ts ++ [(res, t')]) := List.perm_append_comm
  have hall : ∀ p ∈ ts ++ [(res, t')],
      p.2.Balanced ∧ p.2.Sorted key_compare key_of_value := by
    intro p hp
    rcases List.mem_append.mp hp with hp | hp
    · exact ⟨htr.balanced p hp, htr.sorted p hp⟩
    · cases List.mem_singleton.mp hp
      refine ⟨hb, ?_⟩
      unfold BalancedTree.Sorted
      rwa [hf]
  refine ⟨?_, hh.perm hperm, fun p hp => (hall p hp).1, fun p hp => (hall p hp).2, ?_, hp⟩
  · rw [List.map_append, htr.versions]
    rfl
  · show _ = m.versions ++ (m.versions[i]?.map f).toList
    rw [List.map_append, htr.lists, htr.list hi, Option.map_some, ← hf]
    rfl

theorem add_steps {op : Nat → TreeM V Ref}
    (hop : Copies (op (t.height + 1)) n t t') (hb : t'.Balanced)
    (hf : t'.toList = f t.toList) :
    StepsTo key_compare key_of_value s (s.add do op (← ImmutableTrees.fuel n))
      (m.add i f) := by
  have hbor := htr.borrowed hi
  obtain ⟨res, h', hrun, hh, hl⟩ :=
    fuel_runs hbor.2 (hop s.heap ts _ htr.holds hbor)
  refine ⟨_, _, ?_, htr.add hi hs hh hb hf htr.popped, hl⟩
  unfold ImmutableTrees.add
  rw [hrun]
  rfl

theorem addPopped_steps {g : List V → V} {op : Nat → TreeM V (V × Ref)}
    {out : V × BalancedTree V}
    (hop : Pops (op (t.height + 1)) n t out) (hb : out.2.Balanced)
    (hg : out.1 = g t.toList ∧ out.2.toList = f t.toList) :
    StepsTo key_compare key_of_value s (s.addPopped do op (← ImmutableTrees.fuel n))
      ((m.give i g).add i f) := by
  have hbor := htr.borrowed hi
  obtain ⟨⟨value, res⟩, h', hrun, hvalue, hh, hl⟩ :=
    fuel_runs hbor.2 (hop s.heap ts _ htr.holds hbor)
  have hgive : Tracks key_compare key_of_value { s with popped := s.popped ++ [value] }
      (m.give i g) ts := by
    refine ⟨htr.versions, htr.holds, htr.balanced, htr.sorted, htr.lists, ?_⟩
    show s.popped ++ [value] = m.popped ++ (m.versions[i]?.map g).toList
    have hfirst : value = g t.toList := hvalue.trans hg.1
    rw [htr.list hi, htr.popped, hfirst]
    rfl
  refine ⟨_, _, ?_, hgive.add hi hs hh hb hg.2 hgive.popped, hl⟩
  unfold ImmutableTrees.addPopped
  rw [hrun]
  rfl

end Step

theorem StepsTo.withVersion {f : Ref → Except Fault (ImmutableTrees V)}
    (hi : s.versions[i]? = some n) (h : StepsTo key_compare key_of_value s (f n) m) :
    StepsTo key_compare key_of_value s (ImmutableTrees.step.withVersion s i f) m := by
  unfold ImmutableTrees.step.withVersion
  rw [hi]
  exact h

omit [Inhabited V] in
theorem withVersion_none {f : Ref → Except Fault (ImmutableTrees V)}
    (hi : s.versions[i]? = none) : ImmutableTrees.step.withVersion s i f = .ok s := by
  unfold ImmutableTrees.step.withVersion
  rw [hi]

omit [Inhabited V] in
theorem ReferenceMaps.add_none (hi : m.versions[i]? = none) : m.add i f = m := by
  unfold add
  rw [hi]
  simp

/-- A call on a version that the client does not hold does nothing. -/
theorem Tracks.missing (htr : Tracks key_compare key_of_value s m ts) {op : TreeOp K V}
    (hi : ts[op.version]? = none) :
    s.step key_compare key_of_value op = .ok s ∧ m.step key_compare key_of_value op = m := by
  have hs : s.versions[op.version]? = none := by
    rw [← htr.versions, List.getElem?_map, hi]
    rfl
  have hm : m.versions[op.version]? = none := by
    rw [← htr.lists, List.getElem?_map, hi]
    rfl
  cases op with
  | insert | replace | remove | copy =>
    exact ⟨withVersion_none hs, ReferenceMaps.add_none hm⟩
  | popMin i | popMax i =>
    refine ⟨withVersion_none hs, ?_⟩
    change m.versions[i]? = none at hm
    show (m.give i _).add i _ = m
    simp [ReferenceMaps.give, hm, ReferenceMaps.add_none]
  | destroy i =>
    have hlength : m.versions.length ≤ i := List.getElem?_eq_none_iff.mp hm
    refine ⟨withVersion_none hs, ?_⟩
    show ReferenceMaps.mk (m.versions.eraseIdx i) m.popped = m
    rw [List.eraseIdx_of_length_le hlength]

variable (ho : StrictWeakOrder key_compare)

include ho

theorem step_tracks (htr : Tracks key_compare key_of_value s m ts) (op : TreeOp K V) :
    StepsTo key_compare key_of_value s (s.step key_compare key_of_value op)
      (m.step key_compare key_of_value op) := by
  cases hi : ts[op.version]? with
  | none =>
    obtain ⟨hs, hm⟩ := htr.missing hi
    rw [hs, hm]
    exact ⟨s, ts, rfl, htr, Later.refl _⟩
  | some p =>
    obtain ⟨n, t⟩ := p
    have hmem := List.mem_of_getElem? hi
    have hb : t.Balanced := htr.balanced _ hmem
    have hs : t.Sorted key_compare key_of_value := htr.sorted _ hmem
    have hver : s.versions[op.version]? = some n := by
      rw [← htr.versions, List.getElem?_map, hi]
      rfl
    have hfuel : t.height < t.height + 1 := Nat.lt_succ_self _
    cases op with
    | insert i v =>
      exact .withVersion hver (add_steps htr hi (SortedList.sorted_insert ho hs)
        (insert_copies key_compare key_of_value v _ t n hb hfuel)
        (BalancedTree.insert_swells _ _ v hb).1 (BalancedTree.insert_toList ho hs))
    | replace i v =>
      exact .withVersion hver (add_steps htr hi (SortedList.sorted_replace ho hs)
        (replace_copies key_compare key_of_value v _ t n hb hfuel)
        (BalancedTree.replace_swells _ _ v hb).1 (BalancedTree.replace_toList ho hs))
    | remove i k =>
      exact .withVersion hver (add_steps htr hi (SortedList.sorted_remove ho hs)
        (remove_copies key_compare key_of_value k _ t n hb hfuel)
        (BalancedTree.remove_shrinks _ _ k hb).1 (BalancedTree.remove_toList ho hs))
    | popMin i =>
      exact .withVersion hver (addPopped_steps htr hi (hs.sublist (List.tail_sublist _))
        (popMin_pops _ t n hb hfuel) (BalancedTree.popMin_shrinks hb).1
        (BalancedTree.popMin_toList t))
    | popMax i =>
      exact .withVersion hver (addPopped_steps htr hi (hs.sublist (List.dropLast_sublist _))
        (popMax_pops _ t n hb hfuel) (BalancedTree.popMax_shrinks hb).1
        (BalancedTree.popMax_toList t))
    | copy i =>
      obtain ⟨res, h', hrun, hh, hl⟩ :=
        incref_copies n t s.heap ts _ htr.holds (htr.borrowed hi)
      refine .withVersion hver ⟨_, _, ?_, htr.add hi (f := id) hs hh hb rfl htr.popped, hl⟩
      unfold ImmutableTrees.add
      rw [hrun]
      rfl
    | destroy i =>
      have hperm : ts.Perm ((n, t) :: ts.eraseIdx i) := by
        obtain ⟨hlt, hget⟩ := List.getElem?_eq_some_iff.mp hi
        rw [← hget]
        exact (List.getElem_cons_eraseIdx_perm hlt).symm
      obtain ⟨_, h', hrun, hh, hl⟩ := decref_holds (htr.holds.perm hperm)
      have hsub : ∀ p ∈ ts.eraseIdx i, p ∈ ts := fun p hp => List.mem_of_mem_eraseIdx hp
      refine .withVersion hver ⟨⟨h', s.versions.eraseIdx i, s.popped⟩, ts.eraseIdx i, ?_,
        ⟨?_, hh, ?_, ?_, ?_, ?_⟩, hl⟩
      · rw [hrun]
        rfl
      · rw [← List.eraseIdx_map, htr.versions]
      · exact fun p hp => htr.balanced p (hsub p hp)
      · exact fun p hp => htr.sorted p (hsub p hp)
      · rw [← List.eraseIdx_map, htr.lists]
        rfl
      · exact htr.popped

omit ho in
theorem initial_cells (hr : r ≠ terminator) : (TreeM.initial (V := V)).cells r = none := by
  simp [TreeM.initial, hr]

omit ho in
/-- The terminator has a reference for each of its two children, and one that is
never given up. -/
theorem initial_holds : Holds (V := V) TreeM.initial [] {terminator} := by
  refine ⟨⟨?_, ?_, ?_⟩, fun p hp => absurd hp (by simp)⟩
  · intro r hr
    exact initial_cells (Nat.ne_of_gt hr)
  · intro r
    have hpointers : (TreeM.initial (V := V)).pointers children r =
        [terminator, terminator].count r := Finset.sum_range_one _
    rw [hpointers]
    by_cases hr : r = terminator
    · subst hr
      rfl
    · have hnot : terminator ≠ r := fun heq => hr heq.symm
      unfold Heap.references
      rw [initial_cells hr]
      simp [hr, hnot]
  · intro r c hr
    by_cases hne : r = terminator
    · subst hne
      cases hr
      exact Nat.succ_pos _
    · rw [initial_cells hne] at hr
      cases hr

omit ho in
theorem create_tracks : ∃ s ts, ImmutableTrees.create (V := V) = .ok s ∧
    Tracks key_compare key_of_value s .create ts := by
  obtain ⟨n, h', hrun, rfl, hh, -⟩ :=
    incref_holds initial_holds (Represents.empty (h := TreeM.initial (V := V)) rfl)
  refine ⟨⟨h', [terminator], []⟩, [(terminator, .empty)], ?_, ⟨rfl, hh, ?_, ?_, rfl, rfl⟩⟩
  · unfold ImmutableTrees.create
    rw [hrun]
    rfl
  · exact List.forall_mem_singleton.mpr trivial
  · intro p hp
    cases List.mem_singleton.mp hp
    exact List.Pairwise.nil

theorem foldlM_tracks : ∀ (ops : List (TreeOp K V)) {s : ImmutableTrees V}
    {m : ReferenceMaps V} {ts : List (Ref × BalancedTree V)},
    Tracks key_compare key_of_value s m ts →
      ∃ s' ts', ops.foldlM (ImmutableTrees.step key_compare key_of_value) s = .ok s' ∧
        Tracks key_compare key_of_value s'
          (ops.foldl (ReferenceMaps.step key_compare key_of_value) m) ts'
  | [], s, _, ts, htr => ⟨s, ts, rfl, htr⟩
  | op :: ops, s, m, ts, htr => by
    obtain ⟨s1, ts1, hstep, htr1, -⟩ := step_tracks ho htr op
    rw [List.foldlM_cons, hstep]
    exact foldlM_tracks ops htr1

theorem run_tracks (ops : List (TreeOp K V)) :
    ∃ s ts, ImmutableTrees.run key_compare key_of_value ops = .ok s ∧
      Tracks key_compare key_of_value s (ReferenceMaps.run key_compare key_of_value ops) ts := by
  obtain ⟨s, ts, hcreate, htr⟩ : ∃ s ts, ImmutableTrees.create (V := V) = .ok s ∧
      Tracks key_compare key_of_value s .create ts := create_tracks
  obtain ⟨s', ts', hrun, htr'⟩ := foldlM_tracks ho ops htr
  refine ⟨s', ts', ?_, htr'⟩
  unfold ImmutableTrees.run
  rw [hcreate]
  exact hrun

omit ho in
theorem Tracks.forall₂ (htr : Tracks key_compare key_of_value s m ts) :
    List.Forall₂ (fun n l => ∃ t, Represents s.heap n t ∧ t.Balanced ∧
      t.Sorted key_compare key_of_value ∧ t.toList = l) s.versions m.versions := by
  rw [← htr.versions, ← htr.lists, List.forall₂_map_left_iff, List.forall₂_map_right_iff]
  refine List.forall₂_same.mpr fun p hp => ⟨p.2, ?_⟩
  exact ⟨htr.holds.represents p hp, htr.balanced p hp, htr.sorted p hp, rfl⟩

/-- After any run, each version is a balanced search tree with the values of the
reference map of its calls. A further call returns, and every version that is
still there has the nodes it had. -/
theorem versions_represent_maps (ops : List (TreeOp K V)) :
    ∃ s, ImmutableTrees.run key_compare key_of_value ops = .ok s ∧
      s.popped = (ReferenceMaps.run key_compare key_of_value ops).popped ∧
      List.Forall₂ (fun n l => ∃ t, Represents s.heap n t ∧ t.Balanced ∧
        t.Sorted key_compare key_of_value ∧ t.toList = l) s.versions
        (ReferenceMaps.run key_compare key_of_value ops).versions ∧
      ∀ op, ∃ s', s.step key_compare key_of_value op = .ok s' ∧
        ∀ n ∈ s.versions, n ∈ s'.versions → ∀ t, Represents s.heap n t →
          Represents s'.heap n t := by
  obtain ⟨s, ts, hrun, htr⟩ := run_tracks ho ops
  refine ⟨s, hrun, htr.popped, htr.forall₂, fun op => ?_⟩
  obtain ⟨s', ts', hstep, htr', hl⟩ := step_tracks ho htr op
  refine ⟨s', hstep, fun n _ hn' t hrep => ?_⟩
  have hmem : n ∈ (↑(ts'.map Prod.fst) + {terminator} : Multiset Ref) := by
    rw [htr'.versions]
    exact Multiset.mem_add.mpr (.inl hn')
  have hle : ({n} : Multiset Ref) ≤ ↑(ts'.map Prod.fst) + {terminator} :=
    Multiset.singleton_le.mpr hmem
  exact hrep.later hl htr.holds.counted htr'.holds.counted hle
    (.owned (Multiset.mem_singleton_self n))

end Run

theorem natOrder : StrictWeakOrder fun a b : Nat => decide (a < b) where
  asymm := by
    intro a b h
    rw [decide_eq_true_eq] at h
    rw [decide_eq_false_iff_not]
    omega
  cotrans := by
    intro a b c h
    rw [decide_eq_true_eq] at h
    rw [decide_eq_true_eq, decide_eq_true_eq]
    omega

/-- Two values added, one of them taken out of the last version in two ways. -/
theorem versions_represent_maps_nat :
    ∃ s, ImmutableTrees.run (fun a b : Nat => decide (a < b)) id
        [.insert 0 5, .insert 1 3, .remove 2 5, .popMin 2, .destroy 1] = .ok s ∧
      s.popped = [3] ∧
      List.Forall₂ (fun n l => ∃ t, Represents s.heap n t ∧ t.Balanced ∧
        t.Sorted (fun a b : Nat => decide (a < b)) id ∧ t.toList = l) s.versions
        [[], [3, 5], [3], [5]] := by
  obtain ⟨s, hrun, hpopped, hall, -⟩ := versions_represent_maps (V := Nat) natOrder
    [.insert 0 5, .insert 1 3, .remove 2 5, .popMin 2, .destroy 1]
  exact ⟨s, hrun, hpopped, hall⟩

end VitalSE.ImmutableTrees
