import Mathlib.Data.List.Basic

/-!
# Comparing trees by their preorder codes

A tree has a label, which is a list of numbers, and parts. Its code is its label
followed by the codes of its parts. If a label says where it ends and how many parts
there are, a code says where it ends, and comparing two trees label first and then
part by part is the same as comparing their codes. So that comparison is a total
order whenever a tree is determined by its label and its parts.
-/

/-- Comparison of lists of numbers, a proper beginning first. -/
abbrev compareNats : List Nat → List Nat → Ordering := List.compareLex compare

theorem compareNats_cons (x y : Nat) (a b : List Nat) :
    compareNats (x :: a) (y :: b) = (compare x y).then (compareNats a b) :=
  List.compareLex_cons_cons

theorem compareNats_self (a : List Nat) : compareNats a a = .eq := by
  rw [Std.LawfulEqCmp.compare_eq_iff_eq]

/-- Neither list is a proper beginning of the other. -/
def Apart (a b : List Nat) : Prop := ∀ u v, a ++ u = b ++ v → a = b

theorem compareNats_append {a b u v : List Nat} (h : Apart a b) :
    compareNats (a ++ u) (b ++ v) = (compareNats a b).then (compareNats u v) := by
  induction a generalizing b with
  | nil =>
    cases b with
    | nil => rfl
    | cons d b => exact absurd (h (d :: b) [] (by simp)) (by simp)
  | cons c a ih =>
    cases b with
    | nil => exact absurd (h [] (c :: a) (by simp)) (by simp)
    | cons d b =>
      rw [List.cons_append, List.cons_append, compareNats_cons, compareNats_cons]
      cases hcd : compare c d with
      | lt => rfl
      | gt => rfl
      | eq =>
        obtain rfl := Nat.compare_eq_eq.mp hcd
        exact ih fun u v heq => List.cons.inj (h u v (congrArg (c :: ·) heq)) |>.2

theorem apart_of_length_eq {a b : List Nat} (h : a.length = b.length) : Apart a b :=
  fun _ _ heq => (List.append_inj heq h).1

theorem Apart.cons {x y : Nat} {a b : List Nat} (h : x = y → Apart a b) :
    Apart (x :: a) (y :: b) := by
  intro u v heq
  obtain ⟨hxy, heq⟩ := List.cons.inj heq
  rw [hxy, h hxy u v heq]

theorem Apart.append {a b c d : List Nat} (h : Apart a b) (h' : Apart c d) :
    Apart (a ++ c) (b ++ d) := by
  intro u v heq
  rw [List.append_assoc, List.append_assoc] at heq
  have hab := h _ _ heq
  rw [hab] at heq
  rw [hab, h' u v (List.append_cancel_left heq)]

/-- A list that says where it ends. -/
def terminated (l : List Nat) : List Nat := l.map (· + 1) ++ [0]

theorem terminated_apart (l l' : List Nat) : Apart (terminated l) (terminated l') := by
  induction l generalizing l' with
  | nil =>
    cases l' with
    | nil => exact apart_of_length_eq rfl
    | cons y l' => exact Apart.cons fun h => nomatch h
  | cons x l ih =>
    cases l' with
    | nil => exact Apart.cons fun h => nomatch h
    | cons y l' => exact Apart.cons fun _ => ih l'

theorem compareNats_terminated (l l' : List Nat) :
    compareNats (terminated l) (terminated l') = compareNats l l' := by
  induction l generalizing l' with
  | nil =>
    cases l' with
    | nil => rfl
    | cons y l' => rfl
  | cons x l ih =>
    cases l' with
    | nil => rfl
    | cons y l' =>
      have hcons : ∀ z l, terminated (z :: l) = (z + 1) :: terminated l := fun _ _ => rfl
      have hsucc : compare (x + 1) (y + 1) = compare x y := by
        simp only [Nat.compare_eq_ite_lt, Nat.add_lt_add_iff_right]
      rw [hcons, hcons, compareNats_cons, compareNats_cons, hsucc, ih]

/-- How trees are taken apart. -/
structure Coding (T : Type) where
  label : T → List Nat
  parts : T → List T
  size : T → Nat
  size_lt : ∀ {s t}, s ∈ parts t → size s < size t
  apart : ∀ s t, Apart (label s) (label t)
  arity : ∀ {s t}, label s = label t → (parts s).length = (parts t).length
  ext : ∀ {s t}, label s = label t → parts s = parts t → s = t

namespace Coding

variable {T : Type} (C : Coding T) {s t : T} {l l' : List T}

/-- The label of a term, and then the codes of its parts. -/
def code (t : T) : List Nat :=
  C.label t ++ (C.parts t).attach.flatMap fun p => code p.1
termination_by C.size t
decreasing_by exact C.size_lt p.2

theorem code_eq (t : T) : C.code t = C.label t ++ (C.parts t).flatMap C.code := by
  rw [code]
  congr 1
  rw [List.flatMap_subtype (g := C.code) fun _ _ => rfl, List.unattach_attach]

/-- The comparison of trees. -/
def order (s t : T) : Ordering := compareNats (C.code s) (C.code t)

variable {C}

/-- Lists of equally many trees whose codes can be told apart. -/
theorem flatMap_inj {u v : List Nat}
    (hinj : ∀ s ∈ l, ∀ t u v, C.code s ++ u = C.code t ++ v → s = t ∧ u = v)
    (hlen : l.length = l'.length) (h : l.flatMap C.code ++ u = l'.flatMap C.code ++ v) :
    l = l' ∧ u = v := by
  induction l generalizing l' with
  | nil =>
    obtain rfl := List.length_eq_zero_iff.mp hlen.symm
    exact ⟨rfl, h⟩
  | cons s l ih =>
    cases l' with
    | nil => cases hlen
    | cons t l' =>
      rw [List.flatMap_cons, List.flatMap_cons, List.append_assoc, List.append_assoc] at h
      obtain ⟨rfl, hrest⟩ := hinj s List.mem_cons_self t _ _ h
      obtain ⟨rfl, rfl⟩ := ih (fun s hs => hinj s (List.mem_cons_of_mem _ hs))
        (Nat.succ.inj hlen) hrest
      exact ⟨rfl, rfl⟩

theorem code_append_inj {u v : List Nat} (h : C.code s ++ u = C.code t ++ v) : s = t ∧ u = v := by
  suffices hall : ∀ n s, C.size s = n → ∀ t u v, C.code s ++ u = C.code t ++ v →
      s = t ∧ u = v from hall _ s rfl t u v h
  intro n
  induction n using Nat.strongRecOn with
  | ind n ih =>
    intro s hs t u v h
    rw [code_eq, code_eq, List.append_assoc, List.append_assoc] at h
    have hlabel := C.apart s t _ _ h
    rw [hlabel] at h
    obtain ⟨hparts, huv⟩ := flatMap_inj (C := C) (fun p hp t' u' v' h' =>
      ih (C.size p) (hs ▸ C.size_lt hp) p rfl t' u' v' h') (C.arity hlabel)
      (List.append_cancel_left h)
    exact ⟨C.ext hlabel hparts, huv⟩

theorem code_inj : C.code s = C.code t ↔ s = t := by
  refine ⟨fun h => ?_, fun h => h ▸ rfl⟩
  exact (code_append_inj (u := []) (v := []) (by rw [h])).1

theorem code_apart (s t : T) : Apart (C.code s) (C.code t) := by
  intro u v h
  rw [(code_append_inj h).1]

/-- Part by part. -/
def orderList (C : Coding T) : List T → List T → Ordering
  | s :: l, t :: l' => (C.order s t).then (orderList C l l')
  | _, _ => .eq

theorem orderList_append {m m' : List T} (hlen : l.length = l'.length) :
    C.orderList (l ++ m) (l' ++ m') = (C.orderList l l').then (C.orderList m m') := by
  induction l generalizing l' with
  | nil =>
    obtain rfl := List.length_eq_zero_iff.mp hlen.symm
    rfl
  | cons s l ih =>
    cases l' with
    | nil => cases hlen
    | cons t l' =>
      show (C.order s t).then (C.orderList (l ++ m) (l' ++ m')) = _
      rw [ih (Nat.succ.inj hlen), ← Ordering.then_assoc]
      rfl

theorem compareNats_flatMap (hlen : l.length = l'.length) :
    compareNats (l.flatMap C.code) (l'.flatMap C.code) = C.orderList l l' := by
  induction l generalizing l' with
  | nil =>
    obtain rfl := List.length_eq_zero_iff.mp hlen.symm
    rfl
  | cons s l ih =>
    cases l' with
    | nil => cases hlen
    | cons t l' =>
      rw [List.flatMap_cons, List.flatMap_cons, compareNats_append (code_apart s t),
        ih (Nat.succ.inj hlen)]
      rfl

/-- Trees are compared label first and then part by part. -/
theorem order_eq (s t : T) : C.order s t =
    (compareNats (C.label s) (C.label t)).then (C.orderList (C.parts s) (C.parts t)) := by
  rw [order, code_eq, code_eq, compareNats_append (C.apart s t)]
  cases hlabel : compareNats (C.label s) (C.label t) with
  | lt => rfl
  | gt => rfl
  | eq => rw [compareNats_flatMap (C.arity (Std.LawfulEqCmp.compare_eq_iff_eq.mp hlabel))]

theorem order_eq_eq : C.order s t = .eq ↔ s = t := by
  rw [order, Std.LawfulEqCmp.compare_eq_iff_eq, code_inj]

theorem order_swap (s t : T) : C.order t s = (C.order s t).swap := by
  have horiented : Std.OrientedCmp compareNats := inferInstance
  exact horiented.eq_swap

theorem order_isLE_trans {r : T} (h : (C.order r s).isLE) (h' : (C.order s t).isLE) :
    (C.order r t).isLE := by
  have htrans : Std.TransCmp compareNats := inferInstance
  exact htrans.isLE_trans h h'

end Coding
