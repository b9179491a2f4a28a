import VitalSE.Expr.Compare
import VitalSE.Lib.Runs
import VitalSE.Proofs.VisitorSound

/-!
# The order of expressions

What `Expr::compare` returns is the comparison of two preorder codes: the kind,
the hash, the contents, the updates from the newest on and the operands. The code
marks the end of an update list, and the loop over two lists does not: it relies
on the two counts, which are kept in 32 bits. So a comparison can fail only on two
lists of which one is the beginning of the other and whose lengths are equal modulo
2 ^ 32. On a graph with no such pair the comparison is a total order that tells
apart any two terms, and on a graph with one it is not.
-/

namespace VitalSE

variable {e f : Expr} {s t : Expr ⊕ UpdateNode} {u : Option Nat} {root' : Array}

/-- The kind that has the number. -/
def Kind.ofNumber (n : Nat) : Kind :=
  if n < 10 then
    [constant, notOptimized, not, read, select, concat, extract, zext, sext].getD n not
  else if n < 23 then binary (.ofNat (n - 10)) else cmp (.ofNat (n - 23))

theorem Kind.number_injective : Function.Injective Kind.number := by
  apply Function.LeftInverse.injective (g := ofNumber)
  rintro (_ | _ | _ | _ | _ | _ | _ | _ | _ | (_ | _) | (_ | _)) <;> rfl

/-! ## Codes -/

/-- What `compareContents` reads of an object besides its updates, and for an array also
the fields that its address determines. -/
def Expr.contents : Expr → List Nat
  | .constant c => [c.width, c.toNat]
  | .read root head _ => terminated root.bytes ++ root.address :: root.size ::
      (terminated (root.constantValues.map BitVec.toNat) ++ [head.getSize.toNat])
  | .concat l r => [(Expr.concat l r).getWidth]
  | .extract _ offset width => [offset, width]
  | .zext _ width => [width]
  | .sext _ width => [width]
  | _ => []

/-- The updates of a read. -/
def Expr.updates : Expr → List (Expr ⊕ UpdateNode)
  | .read _ head _ => [.inr head]
  | _ => []

theorem APInt.ext_toNat {c d : APInt} (hw : c.width = d.width) (h : c.toNat = d.toNat) : c = d := by
  obtain ⟨w, x⟩ := c
  obtain ⟨w', y⟩ := d
  cases hw
  exact congrArg (APInt.mk w) (BitVec.eq_of_toNat_eq h)

theorem terminated_inj {l l' : List Nat} (h : terminated l = terminated l') : l = l' := by
  have hmap := List.append_cancel_right h
  exact List.map_injective_iff.mpr (fun _ _ => Nat.succ.inj) hmap

theorem Array.ext_contents {a b : Array} (hname : a.bytes = b.bytes)
    (haddress : a.address = b.address) (hsize : a.size = b.size)
    (hvalues : a.constantValues.map BitVec.toNat = b.constantValues.map BitVec.toNat) : a = b := by
  have hname' : a.name = b.name := by
    have htoList := List.map_injective_iff.mpr (fun _ _ => UInt8.toNat_inj.mp) hname
    exact String.toByteArray_inj.mp (ByteArray.ext (Array.ext' htoList))
  have hvalues' := List.map_injective_iff.mpr (fun _ _ => BitVec.eq_of_toNat_eq) hvalues
  cases a
  cases b
  simp_all

/-- A term is its kind, its contents, its updates and its operands. -/
structure Expr.Matches (e f : Expr) : Prop where
  contents_apart : Apart e.contents f.contents
  length_updates : e.updates.length = f.updates.length
  length_kids : e.kids.length = f.kids.length
  ext : e.contents = f.contents → e.updates = f.updates → e.kids = f.kids → e = f

theorem Expr.matches_of_kind (h : e.getKind = f.getKind) : e.Matches f := by
  cases e <;> cases f <;> cases h
  case constant.constant =>
    refine ⟨apart_of_length_eq rfl, rfl, rfl, fun hcontents _ _ => ?_⟩
    obtain ⟨hwidth, htail⟩ := List.cons.inj hcontents
    rw [APInt.ext_toNat hwidth (List.cons.inj htail).1]
  case read.read root head i root' head' i' =>
    refine ⟨?_, rfl, rfl, fun hcontents hupdates hkids => ?_⟩
    · apply (terminated_apart _ _).append
      apply Apart.cons
      intro _
      apply Apart.cons
      intro _
      exact (terminated_apart _ _).append (apart_of_length_eq rfl)
    · have hbytes := terminated_apart _ _ _ _ hcontents
      rw [contents, contents, hbytes] at hcontents
      obtain ⟨haddress, htail⟩ := List.cons.inj (List.append_cancel_left hcontents)
      obtain ⟨hsize, htail⟩ := List.cons.inj htail
      have hvalues := terminated_apart _ _ _ _ htail
      rw [Array.ext_contents (terminated_inj hbytes) haddress hsize (terminated_inj hvalues),
        Sum.inr.inj (List.cons.inj hupdates).1, (List.cons.inj hkids).1]
  all_goals
    refine ⟨apart_of_length_eq rfl, rfl, rfl, fun hcontents _ hkids => ?_⟩
    simp only [contents, kids, List.cons.injEq, and_true] at hcontents hkids
    simp_all only

/-- The label of a term or of an update list. The number 2 is no kind. -/
def termLabel (hashValue : APInt → BitVec 32) : Expr ⊕ UpdateNode → List Nat
  | .inl e => e.getKind.number :: (e.computeHash hashValue).toNat :: e.contents
  | .inr .null => [2, 0]
  | .inr (.node _ _ _) => [2, 1]

/-- What the comparison of a term goes on to. -/
def termParts : Expr ⊕ UpdateNode → List (Expr ⊕ UpdateNode)
  | .inl e => e.updates ++ e.kids.map .inl
  | .inr .null => []
  | .inr (.node next index value) => [.inl index, .inl value, .inr next]

theorem Kind.number_ne_two (k : Kind) : k.number ≠ 2 := by
  rcases k with _ | _ | _ | _ | _ | _ | _ | _ | _ | (_ | _) | (_ | _) <;> decide

theorem size_lt_of_mem_parts (h : s ∈ termParts t) :
    s.elim Expr.weight UpdateNode.weight < t.elim Expr.weight UpdateNode.weight := by
  rcases t with e | _ | ⟨next, index, value⟩
  · rw [termParts, List.mem_append, List.mem_map] at h
    obtain h | ⟨k, hk, rfl⟩ := h
    · cases e with
      | read root head i =>
        obtain rfl := List.mem_singleton.mp h
        have hi := i.weight_pos
        simp only [Sum.elim_inl, Sum.elim_inr, Expr.weight]
        omega
      | _ => cases h
    · exact Expr.weight_lt_of_mem_kids hk
  · cases h
  · have hi := index.weight_pos
    have hv := value.weight_pos
    simp only [termParts, List.mem_cons, List.not_mem_nil, or_false] at h
    obtain rfl | rfl | rfl := h <;>
      simp only [Sum.elim_inl, Sum.elim_inr, UpdateNode.weight] <;> omega

section

variable (hashValue : APInt → BitVec 32)

theorem label_apart (s t : Expr ⊕ UpdateNode) :
    Apart (termLabel hashValue s) (termLabel hashValue t) := by
  rcases s with e | n <;> rcases t with f | n'
  · apply Apart.cons
    intro hkind
    apply Apart.cons
    intro _
    exact (Expr.matches_of_kind (Kind.number_injective hkind)).contents_apart
  · cases n' <;> exact Apart.cons fun h => absurd h e.getKind.number_ne_two
  · cases n <;> exact Apart.cons fun h => absurd h.symm f.getKind.number_ne_two
  · cases n <;> cases n' <;> exact apart_of_length_eq rfl

theorem length_parts_of_label_eq (h : termLabel hashValue s = termLabel hashValue t) :
    (termParts s).length = (termParts t).length := by
  rcases s with e | n <;> rcases t with f | n'
  · have hkind := Expr.matches_of_kind (Kind.number_injective (List.cons.inj h).1)
    simp only [termParts, List.length_append, List.length_map, hkind.length_updates,
      hkind.length_kids]
  · cases n' <;> exact absurd (List.cons.inj h).1 e.getKind.number_ne_two
  · cases n <;> exact absurd (List.cons.inj h).1.symm f.getKind.number_ne_two
  · cases n <;> cases n' <;> first | rfl | cases h

theorem eq_of_label_eq_of_parts_eq (hlabel : termLabel hashValue s = termLabel hashValue t)
    (hparts : termParts s = termParts t) : s = t := by
  rcases s with e | n <;> rcases t with f | n'
  · obtain ⟨hnumber, htail⟩ := List.cons.inj hlabel
    have hkind := Expr.matches_of_kind (Kind.number_injective hnumber)
    obtain ⟨hupdates, hkids⟩ := List.append_inj hparts hkind.length_updates
    have hkids' := List.map_injective_iff.mpr Sum.inl_injective hkids
    rw [hkind.ext (List.cons.inj htail).2 hupdates hkids']
  · cases n' <;> exact absurd (List.cons.inj hlabel).1 e.getKind.number_ne_two
  · cases n <;> exact absurd (List.cons.inj hlabel).1.symm f.getKind.number_ne_two
  · cases n <;> cases n' <;> first | rfl | (cases hparts; rfl) | cases hlabel

/-- The coding of terms and of update lists. -/
def exprCoding : Coding (Expr ⊕ UpdateNode) where
  label := termLabel hashValue
  parts := termParts
  size := Sum.elim Expr.weight UpdateNode.weight
  size_lt := size_lt_of_mem_parts
  apart := label_apart hashValue
  arity := length_parts_of_label_eq hashValue
  ext := eq_of_label_eq_of_parts_eq hashValue

end

/-! ## Update lists -/

/-- The lists agree up to the end of one of them, and the other goes on. -/
def UpdateNode.Uneven : UpdateNode → UpdateNode → Prop
  | .null, .null => False
  | .null, .node _ _ _ => True
  | .node _ _ _, .null => True
  | .node next index value, .node next' index' value' =>
    index = index' ∧ value = value' ∧ next.Uneven next'

theorem UpdateNode.not_uneven_self : ∀ n : UpdateNode, ¬ n.Uneven n
  | .null => id
  | .node next _ _ => fun h => next.not_uneven_self h.2.2

namespace ExprHeap

variable {hashValue : APInt → BitVec 32} (H : ExprHeap hashValue)

/-- Two reads of one array that the counts and hashes do not tell apart and whose update
lists do not end together. -/
def Clash : Prop :=
  ∃ r s root n n' i i', H.expr r = .read root n i ∧ H.expr s = .read root n' i' ∧
    H.hash r = H.hash s ∧ n.getSize = n'.getSize ∧ n.Uneven n'

/-- The order of the terms below two references. -/
def order (a b : Nat) : Ordering :=
  (exprCoding hashValue).order (.inl (H.expr a)) (.inl (H.expr b))

/-- Every pair of the set was found equal. -/
def Equals (s : EquivSet) : Prop := ∀ p ∈ s, H.expr p.1 = H.expr p.2

/-- `m` returns `o`, and keeps the set right. -/
def Gives (m : CompareM Ordering) (o : Ordering) : Prop :=
  ∀ s, H.Equals s → Runs m s fun o' s' => o' = o ∧ H.Equals s'

variable {H} {a b k : Nat} {cmp : Nat → Nat → CompareM Ordering} {i i' : Expr}
  {n n' : UpdateNode} {root : Array} {m : CompareM Ordering} {m' : CompareM Ordering}

theorem Gives.pure (o : Ordering) : H.Gives (pure o) o :=
  fun _ hs => Runs.pure ⟨rfl, hs⟩

theorem Gives.orElse {o o' : Ordering} (h : H.Gives m o) (h' : o = .eq → H.Gives m' o')
    : H.Gives (m.orElse m') (o.then o') := by
  intro s hs
  apply Runs.bind (h s hs)
  intro r s' ⟨hr, hs'⟩
  subst hr
  cases r with
  | lt => exact Runs.pure ⟨rfl, hs'⟩
  | gt => exact Runs.pure ⟨rfl, hs'⟩
  | eq => exact h' rfl s' hs'

theorem order_node {v v' : Expr} :
    (exprCoding hashValue).order (.inr (.node n i v)) (.inr (.node n' i' v')) =
      (((exprCoding hashValue).order (.inl i) (.inl i')).then
        ((exprCoding hashValue).order (.inl v) (.inl v'))).then
        ((exprCoding hashValue).order (.inr n) (.inr n')) := by
  rw [Coding.order_eq]
  show (Ordering.then _ (Ordering.then _ (Ordering.then _ .eq))) = _
  rw [Ordering.then_eq, Ordering.then_assoc]

variable (H) in
/-- The list that starts at `u`. -/
def nodeAt (u : Option Nat) : UpdateNode := u.elim .null H.node

theorem nodeAt_some (u : Nat) : H.nodeAt (some u) =
    .node (H.nodeAt (H.next u)) (H.expr (H.index u)) (H.expr (H.value u)) := H.node_eq u

variable (H) in
/-- `cmp` compares the terms lighter than `k`, where a failure is not in the way. -/
def Compares (cmp : Nat → Nat → CompareM Ordering) (k : Nat) : Prop :=
  ∀ a b, (H.expr a).weight < k → (H.Clash → H.expr a = H.expr b) →
    H.Gives (cmp a b) (H.order a b)

theorem eq_of_order_eq (h : H.order a b = .eq) : H.expr a = H.expr b :=
  Sum.inl_injective (Coding.order_eq_eq.mp h)

variable (H) in
/-- `m` fails at the end of the shorter list. -/
def Breaks (m : CompareM Ordering) : Prop :=
  ∀ s, H.Equals s → m s = .error (.assertion "!an && !bn")

theorem Gives.breaks (h : H.Gives m .eq) (h' : H.Breaks m') : H.Breaks (m.orElse m') := by
  intro s hs
  obtain ⟨o, s', hm, rfl, hs'⟩ := h s hs
  show (m s >>= fun p => _) = _
  rw [hm]
  exact h' s' hs'

theorem Breaks.orElse (h : H.Breaks m) (m' : CompareM Ordering) : H.Breaks (m.orElse m') := by
  intro s hs
  show (m s >>= fun p => _) = _
  rw [h s hs]
  rfl

theorem Compares.same (h : H.Compares cmp k) (hk : (H.expr a).weight < k)
    (hab : H.expr a = H.expr b) : H.Gives (cmp a b) .eq := by
  have hgives := h a b hk fun _ => hab
  rw [order, hab, Coding.order_eq_eq.mpr rfl] at hgives
  exact hgives

/-- The loop over two lists compares them, or fails at the end of the shorter one. -/
theorem compareNodes_spec {n : Nat} {v : Option Nat} (hcmp : H.Compares cmp k)
    (hk : (H.nodeAt u).weight ≤ k) (hn : (H.nodeAt u).weight < n) :
    (¬ (H.nodeAt u).Uneven (H.nodeAt v) → (H.Clash → H.nodeAt u = H.nodeAt v) →
      H.Gives (H.compareNodes cmp n u v)
        ((exprCoding hashValue).order (.inr (H.nodeAt u)) (.inr (H.nodeAt v)))) ∧
    ((H.nodeAt u).Uneven (H.nodeAt v) → H.Breaks (H.compareNodes cmp n u v)) := by
  induction n generalizing u v with
  | zero => omega
  | succ n ih =>
    cases u with
    | none =>
      cases v with
      | none =>
        refine ⟨fun _ _ => ?_, fun huneven => huneven.elim⟩
        rw [Coding.order_eq_eq.mpr rfl]
        exact Gives.pure .eq
      | some v =>
        rw [nodeAt_some]
        exact ⟨fun heven => absurd trivial heven, fun _ _ _ => rfl⟩
    | some u =>
      cases v with
      | none =>
        rw [nodeAt_some]
        exact ⟨fun heven => absurd trivial heven, fun _ _ _ => rfl⟩
      | some v =>
        by_cases huv : u = v
        · rw [huv, Coding.order_eq_eq.mpr rfl, compareNodes, if_pos rfl]
          exact ⟨fun _ _ => Gives.pure .eq,
            fun huneven => absurd huneven (UpdateNode.not_uneven_self _)⟩
        · rw [nodeAt_some, UpdateNode.weight] at hk hn
          have hi := (H.expr (H.index u)).weight_pos
          have hval := (H.expr (H.value u)).weight_pos
          obtain ⟨hgives, hbreaks⟩ :=
            ih (u := H.next u) (v := H.next v) (by omega) (by omega)
          rw [nodeAt_some, nodeAt_some, order_node, compareNodes, if_neg huv]
          constructor
          · intro heven hclash
            apply Gives.orElse
            · apply Gives.orElse
              · exact hcmp _ _ (by omega) fun hc => (UpdateNode.node.inj (hclash hc)).2.1
              · intro _
                exact hcmp _ _ (by omega) fun hc => (UpdateNode.node.inj (hclash hc)).2.2
            · intro hdone
              obtain ⟨hindex, hvalue⟩ := Ordering.then_eq_eq.mp hdone
              apply hgives
              · exact fun h => heven ⟨eq_of_order_eq hindex, eq_of_order_eq hvalue, h⟩
              · exact fun hc => (UpdateNode.node.inj (hclash hc)).1
          · rintro ⟨hindex, hvalue, huneven⟩
            have hnode : H.Gives (H.compareNode cmp u v) .eq :=
              (hcmp.same (by omega) hindex).orElse fun _ => hcmp.same (by omega) hvalue
            exact hnode.breaks (hbreaks huneven)

/-! ## Contents -/

theorem compareNats_contents_read (h : root.address = root'.address → root = root') :
    compareNats (Expr.read root n i).contents (Expr.read root' n' i').contents =
      (compareNats root.bytes root'.bytes).then ((compare root.address root'.address).then
        (compare n.getSize.toNat n'.getSize.toNat)) := by
  rw [Expr.contents, Expr.contents, compareNats_append (terminated_apart _ _),
    compareNats_terminated, compareNats_cons]
  cases haddress : compare root.address root'.address with
  | lt => rfl
  | gt => rfl
  | eq =>
    obtain rfl := h (Nat.compare_eq_eq.mp haddress)
    rw [compareNats_cons, Nat.compare_eq_eq.mpr rfl, compareNats_append (terminated_apart _ _),
      compareNats_cons]
    simp only [compareNats_self, Ordering.then_eq]
    rfl

section Contents

variable (hcmp : H.Compares cmp (H.expr a).weight) (hhash : H.hash a = H.hash b)
  (hclash : H.Clash → H.expr a = H.expr b)
include hcmp hhash hclash

theorem compareUpdateLists_gives (ha : H.expr a = .read root n i)
    (hb : H.expr b = .read root' n' i') :
    H.Gives (H.compareUpdateLists cmp root root' (H.head a) (H.head b))
      ((compareNats (H.expr a).contents (H.expr b).contents).then
        ((exprCoding hashValue).orderList (H.expr a).updates (H.expr b).updates)) := by
  obtain rfl : H.nodeAt (H.head a) = n := H.head_node ha
  obtain rfl : H.nodeAt (H.head b) = n' := H.head_node hb
  have hroot : root.address = root'.address → root = root' := fun h => by
    rw [H.array_address ha, H.array_address hb, h]
  rw [ha, Expr.weight] at hcmp
  rw [ha, hb] at hclash
  rw [ha, hb, compareNats_contents_read hroot, Ordering.then_assoc, Ordering.then_assoc]
  apply (Gives.pure _).orElse
  intro _
  apply (Gives.pure _).orElse
  intro haddress
  apply (Gives.pure _).orElse
  intro hsize
  obtain rfl := hroot (Nat.compare_eq_eq.mp haddress)
  show H.Gives _ (((exprCoding hashValue).order _ _).then .eq)
  rw [Ordering.then_eq]
  apply (compareNodes_spec hcmp (by omega) (Nat.lt_succ_self _)).1
  · intro huneven
    by_cases hc : H.Clash
    · rw [(Expr.read.inj (hclash hc)).2.1] at huneven
      exact UpdateNode.not_uneven_self _ huneven
    · exact hc ⟨a, b, root, _, _, i, i', ha, hb, hhash,
        BitVec.eq_of_toNat_eq (Nat.compare_eq_eq.mp hsize), huneven⟩
  · exact fun hc => (Expr.read.inj (hclash hc)).2.1

theorem compareContents_gives (hkind : (H.expr a).getKind = (H.expr b).getKind) :
    H.Gives (H.compareContents cmp a b) ((compareNats (H.expr a).contents (H.expr b).contents).then
        ((exprCoding hashValue).orderList (H.expr a).updates (H.expr b).updates)) := by
  generalize ha : H.expr a = e at hkind ⊢
  generalize hb : H.expr b = f at hkind ⊢
  cases e <;> cases f <;> cases hkind
  case read.read root n i root' n' i' =>
    have hlists := compareUpdateLists_gives hcmp hhash hclash ha hb
    rw [ha, hb] at hlists
    rw [compareContents, ha, hb]
    exact hlists
  all_goals
    rw [compareContents, ha, hb]
    simp only [Expr.contents, Expr.updates, compareNats_cons, compareNats_self,
      Coding.orderList, Ordering.then_eq]
    exact Gives.pure _

end Contents

theorem compareKids_gives {as bs : List Nat} (hcmp : H.Compares cmp k)
    (hk : ∀ a ∈ as, (H.expr a).weight < k) (hclash : H.Clash → as.map H.expr = bs.map H.expr) :
    H.Gives (compareKids cmp as bs) ((exprCoding hashValue).orderList
      (as.map fun a => .inl (H.expr a)) (bs.map fun b => .inl (H.expr b))) := by
  induction as generalizing bs with
  | nil => exact Gives.pure .eq
  | cons a as ih =>
    cases bs with
    | nil => exact Gives.pure .eq
    | cons b bs =>
      have hpair := fun hc => List.cons.inj (hclash hc)
      apply Gives.orElse
      · exact hcmp a b (hk a List.mem_cons_self) fun hc => (hpair hc).1
      · intro _
        exact ih (fun a ha => hk a (List.mem_cons_of_mem _ ha)) fun hc => (hpair hc).2

theorem sortedPair_equals :
    H.expr (sortedPair a b).1 = H.expr (sortedPair a b).2 ↔ H.expr a = H.expr b := by
  rw [sortedPair]
  split
  · exact Iff.rfl
  · exact eq_comm

/-- The order of two terms of one kind and one hash. -/
theorem order_of_kind_of_hash (hkind : (H.expr a).getKind = (H.expr b).getKind)
    (hhash : H.hash a = H.hash b) :
    H.order a b = ((compareNats (H.expr a).contents (H.expr b).contents).then
      ((exprCoding hashValue).orderList (H.expr a).updates (H.expr b).updates)).then
      ((exprCoding hashValue).orderList ((H.kids a).map fun a => .inl (H.expr a))
        ((H.kids b).map fun b => .inl (H.expr b))) := by
  have hkids : ∀ r, (H.kids r).map (fun r => Sum.inl (H.expr r)) =
      (H.expr r).kids.map (Sum.inl (β := UpdateNode)) := fun r => by
    rw [← H.kids_expr, List.map_map]
    rfl
  have hlabel : compareNats (termLabel hashValue (.inl (H.expr a)))
      (termLabel hashValue (.inl (H.expr b))) =
      compareNats (H.expr a).contents (H.expr b).contents := by
    rw [termLabel, termLabel, hkind, ← H.hash_expr, ← H.hash_expr, hhash, compareNats_cons,
      compareNats_cons, Nat.compare_eq_eq.mpr rfl, Nat.compare_eq_eq.mpr rfl]
    rfl
  rw [order, Coding.order_eq, hkids, hkids, Ordering.then_assoc,
    ← Coding.orderList_append (Expr.matches_of_kind hkind).length_updates]
  exact congrArg (Ordering.then · _) hlabel

theorem order_of_kind_ne (hkind : (H.expr a).getKind ≠ (H.expr b).getKind) :
    H.order a b = compare (H.expr a).getKind.number (H.expr b).getKind.number := by
  rw [order, Coding.order_eq]
  show (compareNats (_ :: _) (_ :: _)).then _ = _
  rw [compareNats_cons]
  cases hcmp : compare (H.expr a).getKind.number (H.expr b).getKind.number with
  | lt => rfl
  | gt => rfl
  | eq => exact absurd (Kind.number_injective (Nat.compare_eq_eq.mp hcmp)) hkind

theorem order_of_hash_ne (hkind : (H.expr a).getKind = (H.expr b).getKind)
    (hhash : H.hash a ≠ H.hash b) : H.order a b = compare (H.hash a).toNat (H.hash b).toNat := by
  rw [order, Coding.order_eq]
  show (compareNats (_ :: _ :: _) (_ :: _ :: _)).then _ = _
  rw [compareNats_cons, compareNats_cons, hkind, Nat.compare_eq_eq.mpr rfl, ← H.hash_expr,
    ← H.hash_expr]
  cases hcmp : compare (H.hash a).toNat (H.hash b).toNat with
  | lt => rfl
  | gt => rfl
  | eq => exact absurd (BitVec.eq_of_toNat_eq (Nat.compare_eq_eq.mp hcmp)) hhash

/-- The last part of `compare`: contents, operands, and the new pair. -/
theorem compareParts_gives {nested : Nat → Nat → CompareM Ordering}
    (hkind : (H.expr a).getKind = (H.expr b).getKind) (hhash : H.hash a = H.hash b)
    (hnested : H.Compares nested (H.expr a).weight)
    (hcmp : H.Compares cmp (H.expr a).weight) (hclash : H.Clash → H.expr a = H.expr b) :
    H.Gives ((H.compareContents nested a b).orElse <|
      (compareKids cmp (H.kids a) (H.kids b)).orElse do
        modify (sortedPair a b :: ·)
        return .eq) (H.order a b) := by
  have hkids : ∀ a' ∈ H.kids a, (H.expr a').weight < (H.expr a).weight := fun a' ha' =>
    Expr.weight_lt_of_mem_kids (H.kids_expr a ▸ List.mem_map_of_mem ha')
  have horder := order_of_kind_of_hash hkind hhash
  rw [horder]
  apply (compareContents_gives hnested hhash hclash hkind).orElse
  intro hcontents
  rw [← Ordering.then_eq (o := Coding.orderList _ _ _)]
  apply (compareKids_gives hcmp hkids fun hc => by
    rw [H.kids_expr, H.kids_expr, hclash hc]).orElse
  intro hsame
  have hequal := eq_of_order_eq (by rw [horder, hcontents, hsame]; rfl)
  intro s hs
  apply Runs.modify_bind
  refine Runs.pure ⟨rfl, fun p hp => ?_⟩
  obtain rfl | hp := List.mem_cons.mp hp
  · exact sortedPair_equals.mpr hequal
  · exact hs p hp

/-- A call that leaves the set empty. -/
theorem Compares.nested (h : H.Compares cmp k) :
    H.Compares (fun a b => do
      let res ← cmp a b
      set ([] : EquivSet)
      return res) k := by
  intro a b hk hclash s hs
  apply Runs.bind (h a b hk hclash s hs)
  intro o _ ho
  apply Runs.set_bind
  exact Runs.pure ⟨ho.1, fun p hp => nomatch hp⟩

theorem compareAux_gives (n a b : Nat) (hn : (H.expr a).weight ≤ n)
    (hclash : H.Clash → H.expr a = H.expr b) : H.Gives (H.compareAux n a b) (H.order a b) := by
  induction n generalizing a b with
  | zero => exact absurd (H.expr a).weight_pos (by omega)
  | succ n ih =>
    have hcmp : H.Compares (H.compareAux n) (H.expr a).weight :=
      fun a' b' ha' hclash' => ih a' b' (by omega) hclash'
    intro s hs
    rw [compareAux]
    by_cases hab : a = b
    · rw [if_pos hab]
      exact Runs.pure ⟨(Coding.order_eq_eq.mpr (by rw [hab])).symm, hs⟩
    rw [if_neg hab]
    apply Runs.get_bind
    by_cases hmem : sortedPair a b ∈ s
    · rw [if_pos hmem]
      have hequal := sortedPair_equals.mp (hs _ hmem)
      exact Runs.pure ⟨(Coding.order_eq_eq.mpr (by rw [hequal])).symm, hs⟩
    rw [if_neg hmem]
    by_cases hkind : (H.expr a).getKind = (H.expr b).getKind
    case neg =>
      rw [if_pos hkind]
      exact Runs.pure ⟨(order_of_kind_ne hkind).symm, hs⟩
    rw [if_neg (not_not_intro hkind)]
    by_cases hhash : H.hash a = H.hash b
    case neg =>
      rw [if_pos hhash]
      exact Runs.pure ⟨(order_of_hash_ne hkind hhash).symm, hs⟩
    rw [if_neg (not_not_intro hhash)]
    exact compareParts_gives hkind hhash hcmp.nested hcmp hclash s hs

/-! ## The order -/

variable (H) in
/-- The comparison is a total order, and tells apart any two terms. -/
def IsOrder : Prop :=
  ∃ order : Nat → Nat → Ordering, (∀ a b, H.compare a b = .ok (order a b)) ∧
    (∀ a b, order a b = .eq ↔ H.expr a = H.expr b) ∧
    (∀ a b, order b a = (order a b).swap) ∧
    ∀ a b c, (order a b).isLE → (order b c).isLE → (order a c).isLE

theorem compare_eq_ok (hclash : H.Clash → H.expr a = H.expr b) :
    H.compare a b = .ok (H.order a b) := by
  obtain ⟨o, s, hrun, rfl, -⟩ :=
    compareAux_gives _ a b le_rfl hclash [] fun p hp => nomatch hp
  show Prod.fst <$> H.compareAux _ a b [] = _
  rw [hrun]
  rfl

theorem isOrder_of_not_clash (h : ¬ H.Clash) : H.IsOrder := by
  refine ⟨H.order, fun a b => compare_eq_ok fun hc => absurd hc h, fun a b => ?_,
    fun a b => Coding.order_swap _ _, fun a b c => Coding.order_isLE_trans⟩
  rw [order, Coding.order_eq_eq, Sum.inl.injEq]

section Clash

variable (ha : H.expr a = .read root n i) (hb : H.expr b = .read root n' i')
  (hsize : n.getSize = n'.getSize) (huneven : n.Uneven n')
include ha hb hsize huneven

theorem compareContents_breaks (hcmp : H.Compares cmp (H.expr a).weight) :
    H.Breaks (H.compareContents cmp a b) := by
  obtain rfl : H.nodeAt (H.head a) = n := H.head_node ha
  obtain rfl : H.nodeAt (H.head b) = n' := H.head_node hb
  have hpure : ∀ o, o = Ordering.eq → H.Gives (pure o) .eq := fun o ho => ho ▸ Gives.pure o
  rw [ha, Expr.weight] at hcmp
  rw [compareContents, ha, hb]
  apply (hpure _ (compareNats_self _)).breaks
  apply (hpure _ (Nat.compare_eq_eq.mpr rfl)).breaks
  apply (hpure _ (Nat.compare_eq_eq.mpr (congrArg BitVec.toNat hsize))).breaks
  exact (compareNodes_spec hcmp (by omega) (Nat.lt_succ_self _)).2 huneven

theorem compare_of_clash (hhash : H.hash a = H.hash b) :
    H.compare a b = .error (.assertion "!an && !bn") := by
  have hab : a ≠ b := by
    intro hab
    rw [hab, hb] at ha
    rw [(Expr.read.inj ha).2.1] at huneven
    exact UpdateNode.not_uneven_self _ huneven
  have hkind : (H.expr a).getKind = (H.expr b).getKind := by
    rw [ha, hb]
    rfl
  obtain ⟨w, hw⟩ := Nat.exists_eq_succ_of_ne_zero (H.expr a).weight_pos.ne'
  have hcmp : H.Compares (H.compareAux w) (H.expr a).weight :=
    fun a' b' ha' hclash => compareAux_gives w a' b' (by omega) hclash
  have hbreaks := (compareContents_breaks ha hb hsize huneven hcmp.nested).orElse
    ((compareKids (H.compareAux w) (H.kids a) (H.kids b)).orElse do
      modify (sortedPair a b :: ·)
      return .eq) [] fun p hp => nomatch hp
  have hrun : H.compareAux (w + 1) a b [] = .error (.assertion "!an && !bn") := by
    rw [compareAux, if_neg hab, if_neg (not_not_intro hkind), if_neg (not_not_intro hhash)]
    exact hbreaks
  show Prod.fst <$> H.compareAux _ a b [] = _
  rw [hw, hrun]
  rfl

end Clash

theorem not_isOrder_of_clash (h : H.Clash) : ¬ H.IsOrder := by
  obtain ⟨a, b, root, n, n', i, i', ha, hb, hhash, hsize, huneven⟩ := h
  intro ⟨order, hok, _⟩
  have hfails := compare_of_clash ha hb hsize huneven hhash
  rw [hok a b] at hfails
  cases hfails

/-- The comparison is a total order on exactly the graphs with no two reads of one array of
equal hashes whose update lists are equally long modulo 2 ^ 32 and one of which is the
beginning of the other. -/
theorem isOrder_iff_not_clash (H : ExprHeap hashValue) : H.IsOrder ↔ ¬ H.Clash := by
  constructor
  · exact fun horder hclash => not_isOrder_of_clash hclash horder
  · exact isOrder_of_not_clash

/-! ## A graph with long lists

One array, read unwritten and read after `k + 1` writes of 0 to position 0. An even number of
equal writes leaves the hash as it was. -/

def zeroIndex : Expr := .constant ⟨32, 0⟩

def zeroByte : Expr := .constant ⟨8, 0⟩

/-- A number of writes of zero to the first byte. -/
def writes : Nat → UpdateNode
  | 0 => .null
  | k + 1 => .node (writes k) zeroIndex zeroByte

def byteArray : Array := .byte 0 "a"

theorem getSize_writes (k : Nat) : (writes k).getSize = BitVec.ofNat 32 k := by
  induction k with
  | zero => rfl
  | succ k ih =>
    rw [writes, UpdateNode.getSize, ih]
    exact (BitVec.ofNat_add k 1).symm

theorem computeHash_writes_even (m : Nat) : (writes (2 * m)).computeHash hashValue = 0 := by
  induction m with
  | zero => rfl
  | succ m ih =>
    rw [Nat.mul_succ, writes, writes, UpdateNode.computeHash, UpdateNode.computeHash, ih]
    simp

variable (hashValue) in
/-- A read of the array as it is, and one behind `k + 1` writes. -/
def writtenHeap (k : Nat) : ExprHeap hashValue where
  expr
    | 0 => zeroIndex
    | 1 => zeroByte
    | 2 => .read byteArray .null zeroIndex
    | _ => .read byteArray (writes (k + 1)) zeroIndex
  kids
    | 0 | 1 => []
    | _ => [0]
  head
    | 0 | 1 | 2 => none
    | _ => some k
  hash
    | 0 => zeroIndex.computeHash hashValue
    | 1 => zeroByte.computeHash hashValue
    | 2 => (Expr.read byteArray .null zeroIndex).computeHash hashValue
    | _ => (Expr.read byteArray (writes (k + 1)) zeroIndex).computeHash hashValue
  node u := writes (u + 1)
  next
    | 0 => none
    | u + 1 => some u
  index _ := 0
  value _ := 1
  array _ := byteArray
  kids_expr
    | 0 | 1 | 2 => rfl
    | _ + 3 => rfl
  head_node {r} _ _ _ h := by
    rcases r with _ | _ | _ | r <;> cases h <;> rfl
  hash_expr
    | 0 | 1 | 2 => rfl
    | _ + 3 => rfl
  node_eq
    | 0 => rfl
    | _ + 1 => rfl
  array_address {r} _ _ _ h := by
    rcases r with _ | _ | _ | r <;> cases h <;> rfl

variable (hashValue) in
theorem clash_writtenHeap {m : Nat} (hm : k + 1 = 2 * m)
    (hsize : BitVec.ofNat 32 (k + 1) = 0) : (writtenHeap hashValue k).Clash := by
  refine ⟨2, 3, byteArray, .null, writes (k + 1), zeroIndex, zeroIndex, rfl, rfl, ?_, ?_, trivial⟩
  · show (Expr.read _ _ _).computeHash _ = (Expr.read _ _ _).computeHash _
    rw [Expr.computeHash, Expr.computeHash, hm, computeHash_writes_even]
    rfl
  · rw [getSize_writes, hsize]
    rfl

/-- Two to the 32nd writes and no write: the loop ends with one list left. -/
theorem not_isOrder_writtenHeap : ¬ (writtenHeap (fun _ => 0) (2 ^ 32 - 1)).IsOrder :=
  not_isOrder_of_clash (clash_writtenHeap _ (m := 2 ^ 31) (by norm_num) (by decide))

end ExprHeap

end VitalSE
