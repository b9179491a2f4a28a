import Mathlib.Data.List.Basic
import Mathlib.Order.Defs.LinearOrder

/-!
# Height-balanced search trees

Search trees whose nodes store their height and whose siblings differ in height
by at most two. The tree is seen through the list of its values in order: every
operation is an operation on a sorted list, and the balance is kept because an
operation changes the height of a subtree by at most one.
-/

/-- The order of a search tree, with the comparison as a test. Keys of which
neither is less count as one key. -/
structure StrictWeakOrder {K : Type} (lt : K → K → Bool) : Prop where
  asymm : ∀ {a b}, lt a b = true → lt b a = false
  cotrans : ∀ {a b} (c), lt a b = true → lt a c = true ∨ lt c b = true

theorem StrictWeakOrder.irrefl {K : Type} {lt : K → K → Bool} (h : StrictWeakOrder lt)
    (a : K) : lt a a = false := by
  by_contra ha
  rw [Bool.not_eq_false] at ha
  rw [h.asymm ha] at ha
  cases ha

theorem StrictWeakOrder.trans {K : Type} {lt : K → K → Bool} (h : StrictWeakOrder lt)
    {a b c : K} (hab : lt a b = true) (hbc : lt b c = true) : lt a c = true := by
  rcases h.cotrans c hab with hac | hcb
  · exact hac
  · rw [h.asymm hbc] at hcb
    cases hcb

/-! ## Sorted lists -/

/-- The order of a list around one of its elements. -/
theorem List.pairwise_around {α : Type} {R : α → α → Prop} {l r : List α} {x : α} :
    (l ++ x :: r).Pairwise R ↔ (l.Pairwise R ∧ r.Pairwise R) ∧
      (∀ a ∈ l, R a x) ∧ (∀ b ∈ r, R x b) ∧ ∀ a ∈ l, ∀ b ∈ r, R a b := by
  simp only [List.pairwise_append, List.pairwise_cons, List.forall_mem_cons, forall_and]
  tauto

/-! A finite map is the list of its values by increasing keys. -/

namespace SortedList

variable {K V : Type} (lt : K → K → Bool) (key : V → K)

def Sorted (l : List V) : Prop := l.Pairwise fun a b => lt (key a) (key b) = true

/-- The values before the key. -/
def below (k : K) (l : List V) : List V := l.filter fun x => lt (key x) k

/-- The values after the key. -/
def above (k : K) (l : List V) : List V := l.filter fun x => lt k (key x)

/-- The value of a key. -/
def find (k : K) (l : List V) : Option V :=
  l.find? fun x => !lt k (key x) && !lt (key x) k

/-- The value is the only one at the key. -/
def put (k : K) (x : V) (l : List V) : List V := below lt key k l ++ x :: above lt key k l

/-- Add a value; a value that has the key already stays. -/
def insert (v : V) (l : List V) : List V :=
  put lt key (key v) ((find lt key (key v) l).getD v) l

/-- Add a value in place of one that has the key. -/
def replace (v : V) (l : List V) : List V := put lt key (key v) v l

def remove (k : K) (l : List V) : List V := below lt key k l ++ above lt key k l

variable {lt key} (ho : StrictWeakOrder lt) {l r : List V} {x : V} {k : K}

theorem sorted_iff : Sorted lt key (l ++ x :: r) ↔ (Sorted lt key l ∧ Sorted lt key r) ∧
      (∀ a ∈ l, lt (key a) (key x) = true) ∧ (∀ b ∈ r, lt (key x) (key b) = true) ∧
        ∀ a ∈ l, ∀ b ∈ r, lt (key a) (key b) = true :=
  List.pairwise_around

include ho

theorem all_below (hl : ∀ a ∈ l, lt (key a) k = true) :
    l.filter (fun a => lt (key a) k) = l ∧ l.filter (fun a => lt k (key a)) = [] ∧
      l.find? (fun a => !lt k (key a) && !lt (key a) k) = none := by
  refine ⟨List.filter_eq_self.mpr hl, List.filter_eq_nil_iff.mpr fun a ha => ?_,
    List.find?_eq_none.mpr fun a ha => by simp [hl a ha]⟩
  simp [ho.asymm (hl a ha)]

theorem all_above (hr : ∀ b ∈ r, lt k (key b) = true) :
    r.filter (fun b => lt (key b) k) = [] ∧ r.filter (fun b => lt k (key b)) = r ∧
      r.find? (fun b => !lt k (key b) && !lt (key b) k) = none := by
  refine ⟨List.filter_eq_nil_iff.mpr fun b hb => ?_, List.filter_eq_self.mpr hr,
    List.find?_eq_none.mpr fun b hb => by simp [hr b hb]⟩
  simp [ho.asymm (hr b hb)]

/-- A key left of the middle is looked for on the left. -/
theorem split_left (hs : Sorted lt key (l ++ x :: r)) (hk : lt k (key x) = true) :
    below lt key k (l ++ x :: r) = below lt key k l ∧
      above lt key k (l ++ x :: r) = above lt key k l ++ x :: r ∧
        find lt key k (l ++ x :: r) = find lt key k l := by
  obtain ⟨h1, h2, h3⟩ := all_above ho fun b hb => ho.trans hk ((sorted_iff.mp hs).2.2.1 b hb)
  exact ⟨by simp [below, ho.asymm hk, h1], by simp [above, hk, h2], by simp [find, hk, h3]⟩

theorem split_right (hs : Sorted lt key (l ++ x :: r)) (hk : lt (key x) k = true) :
    below lt key k (l ++ x :: r) = l ++ x :: below lt key k r ∧
      above lt key k (l ++ x :: r) = above lt key k r ∧
        find lt key k (l ++ x :: r) = find lt key k r := by
  obtain ⟨h1, h2, h3⟩ := all_below ho fun a ha => ho.trans ((sorted_iff.mp hs).2.1 a ha) hk
  exact ⟨by simp [below, hk, h1], by simp [above, ho.asymm hk, h2], by simp [find, hk, h3]⟩

theorem split_here (hs : Sorted lt key (l ++ x :: r)) (hk : lt k (key x) = false)
    (hk' : lt (key x) k = false) :
    below lt key k (l ++ x :: r) = l ∧ above lt key k (l ++ x :: r) = r ∧
      find lt key k (l ++ x :: r) = some x := by
  obtain ⟨-, hlx, hxr, -⟩ := sorted_iff.mp hs
  obtain ⟨h1, h2, h3⟩ := all_below ho fun a ha =>
    (ho.cotrans k (hlx a ha)).resolve_right (by simp [hk])
  obtain ⟨h4, h5, -⟩ := all_above ho fun b hb =>
    (ho.cotrans k (hxr b hb)).resolve_left (by simp [hk'])
  exact ⟨by simp [below, hk', h1, h4], by simp [above, hk, h2, h5],
    by simp [find, hk, hk', h3]⟩

theorem sorted_put (hs : Sorted lt key l) (hk : lt k (key x) = false)
    (hk' : lt (key x) k = false) : Sorted lt key (put lt key k x l) := by
  have hbelow : ∀ a ∈ below lt key k l, lt (key a) k = true := fun a ha =>
    (List.mem_filter.mp ha).2
  have habove : ∀ b ∈ above lt key k l, lt k (key b) = true := fun b hb =>
    (List.mem_filter.mp hb).2
  refine sorted_iff.mpr ⟨⟨hs.filter _, hs.filter _⟩, ?_, ?_, ?_⟩
  · intro a ha
    exact (ho.cotrans (key x) (hbelow a ha)).resolve_right (by simp [hk'])
  · intro b hb
    exact (ho.cotrans (key x) (habove b hb)).resolve_left (by simp [hk])
  · intro a ha b hb
    exact ho.trans (hbelow a ha) (habove b hb)

theorem sorted_insert {v : V} (hs : Sorted lt key l) : Sorted lt key (insert lt key v l) := by
  unfold insert
  cases hf : find lt key (key v) l with
  | none => exact sorted_put ho hs (ho.irrefl _) (ho.irrefl _)
  | some x =>
    have hsame := List.find?_some hf
    simp only [Bool.and_eq_true, Bool.not_eq_true'] at hsame
    exact sorted_put ho hs hsame.1 hsame.2

theorem sorted_replace {v : V} (hs : Sorted lt key l) : Sorted lt key (replace lt key v l) :=
  sorted_put ho hs (ho.irrefl _) (ho.irrefl _)

theorem sorted_remove (hs : Sorted lt key l) : Sorted lt key (remove lt key k l) := by
  refine List.pairwise_append.mpr ⟨hs.filter _, hs.filter _, fun a ha b hb => ?_⟩
  exact ho.trans (List.mem_filter.mp ha).2 (List.mem_filter.mp hb).2

end SortedList

/-- A tree in which every node has its height. -/
inductive BalancedTree (V : Type)
  | empty
  | node (left : BalancedTree V) (value : V) (right : BalancedTree V) (height : Nat)

namespace BalancedTree

variable {K V : Type} {l r t : BalancedTree V} {v : V}

/-- The height that the node has. -/
def height : BalancedTree V → Nat
  | .empty => 0
  | .node _ _ _ h => h

/-- The values from left to right. -/
def toList : BalancedTree V → List V
  | .empty => []
  | .node l v r _ => l.toList ++ v :: r.toList

/-- A node with the height that it should have. -/
def join (l : BalancedTree V) (v : V) (r : BalancedTree V) : BalancedTree V :=
  .node l v r (max l.height r.height + 1)

/-- The left side is too high. -/
def rotateRight (v : V) (r : BalancedTree V) : BalancedTree V → BalancedTree V
  | .empty => join .empty v r
  | .node ll lv lr h =>
    if lr.height ≤ ll.height then join ll lv (join lr v r)
    else
      match lr with
      | .empty => join (.node ll lv .empty h) v r
      | .node lrl lrv lrr _ => join (join ll lv lrl) lrv (join lrr v r)

/-- The right side is too high. -/
def rotateLeft (l : BalancedTree V) (v : V) : BalancedTree V → BalancedTree V
  | .empty => join l v .empty
  | .node rl rv rr h =>
    if rl.height ≤ rr.height then join (join l v rl) rv rr
    else
      match rl with
      | .empty => join l v (.node .empty rv rr h)
      | .node rll rlv rlr _ => join (join l v rll) rlv (join rlr rv rr)

/-- A node for two trees of which one may be too high. -/
def balance (l : BalancedTree V) (v : V) (r : BalancedTree V) : BalancedTree V :=
  if r.height + 2 < l.height then rotateRight v r l
  else if l.height + 2 < r.height then rotateLeft l v r
  else join l v r

/-- The first value and the tree without it; the default of an empty tree. -/
def popMin [Inhabited V] : BalancedTree V → V × BalancedTree V
  | .empty => (default, .empty)
  | .node .empty v r _ => (v, r)
  | .node (.node ll lv lr h) v r _ =>
    let (first, l) := popMin (.node ll lv lr h)
    (first, balance l v r)

/-- The last value and the tree without it. -/
def popMax [Inhabited V] : BalancedTree V → V × BalancedTree V
  | .empty => (default, .empty)
  | .node l v .empty _ => (v, l)
  | .node l v (.node rl rv rr h) _ =>
    let (last, r) := popMax (.node rl rv rr h)
    (last, balance l v r)

section Keys

variable (lt : K → K → Bool) (key : V → K)

/-- Go to the place of the value; `found` says what to do with a value that is
there already. -/
def update (v : V) (found : BalancedTree V → V → BalancedTree V → Nat → BalancedTree V) :
    BalancedTree V → BalancedTree V
  | .empty => join .empty v .empty
  | .node l x r h =>
    if lt (key v) (key x) then balance (update v found l) x r
    else if lt (key x) (key v) then balance l x (update v found r)
    else found l x r h

/-- A value with the same key stays. -/
def insert (v : V) : BalancedTree V → BalancedTree V :=
  update lt key v fun l x r h => .node l x r h

/-- A value with the same key makes way. -/
def replace (v : V) : BalancedTree V → BalancedTree V :=
  update lt key v fun l _ r _ => join l v r

def remove [Inhabited V] (k : K) : BalancedTree V → BalancedTree V
  | .empty => .empty
  | .node l x r _ =>
    if lt k (key x) then balance (remove k l) x r
    else if lt (key x) k then balance l x (remove k r)
    else
      match l, r with
      | .empty, r => r
      | l, .empty => l
      | l, r => balance l (popMin r).1 (popMin r).2

end Keys

section Rotations

variable {l ll lr lrl lrr r rl rr rll rlr : BalancedTree V} {v lv lrv rv rlv : V}
  {h h' : Nat}

theorem rotateRight_single (hle : lr.height ≤ ll.height) :
    rotateRight v r (node ll lv lr h) = join ll lv (join lr v r) := by
  unfold rotateRight
  exact if_pos hle

theorem rotateRight_double (hlt : ¬ (node lrl lrv lrr h').height ≤ ll.height) :
    rotateRight v r (node ll lv (node lrl lrv lrr h') h) =
      join (join ll lv lrl) lrv (join lrr v r) := by
  unfold rotateRight
  exact if_neg hlt

theorem rotateLeft_single (hle : rl.height ≤ rr.height) :
    rotateLeft l v (node rl rv rr h) = join (join l v rl) rv rr := by
  unfold rotateLeft
  exact if_pos hle

theorem rotateLeft_double (hlt : ¬ (node rll rlv rlr h').height ≤ rr.height) :
    rotateLeft l v (node (node rll rlv rlr h') rv rr h) =
      join (join l v rll) rlv (join rlr rv rr) := by
  unfold rotateLeft
  exact if_neg hlt

end Rotations

/-! ## The values of a tree

Balancing moves subtrees, and leaves the values and their order alone. -/

open SortedList

theorem toList_rotateRight : (rotateRight v r l).toList = l.toList ++ v :: r.toList := by
  unfold rotateRight
  split
  · rfl
  · split
    · simp [join, toList]
    · split
      · rfl
      · simp [join, toList]

theorem toList_rotateLeft : (rotateLeft l v r).toList = l.toList ++ v :: r.toList := by
  unfold rotateLeft
  split
  · rfl
  · split
    · simp [join, toList]
    · split
      · rfl
      · simp [join, toList]

@[simp]
theorem toList_balance : (balance l v r).toList = l.toList ++ v :: r.toList := by
  unfold balance
  split
  · exact toList_rotateRight
  · split
    · exact toList_rotateLeft
    · rfl

theorem toList_ne_nil (l : BalancedTree V) (v : V) (r : BalancedTree V) (h : Nat) :
    (node l v r h).toList ≠ [] := by
  simp [toList]

theorem popMin_toList [Inhabited V] (t : BalancedTree V) :
    t.popMin.1 = t.toList.headD default ∧ t.popMin.2.toList = t.toList.tail := by
  fun_induction popMin t with
  | case1 => exact ⟨rfl, rfl⟩
  | case2 v r _ => exact ⟨rfl, rfl⟩
  | case3 ll lv lr h v r _ first l hpop ih =>
    rw [hpop] at ih
    obtain ⟨x, xs, hx⟩ := List.exists_cons_of_ne_nil (toList_ne_nil ll lv lr h)
    rw [hx] at ih
    rw [toList_balance, ih.2]
    show first = ((node ll lv lr h).toList ++ v :: r.toList).headD default ∧
      _ = ((node ll lv lr h).toList ++ v :: r.toList).tail
    rw [hx]
    exact ⟨ih.1, rfl⟩

theorem popMax_toList [Inhabited V] (t : BalancedTree V) :
    t.popMax.1 = t.toList.getLastD default ∧ t.popMax.2.toList = t.toList.dropLast := by
  fun_induction popMax t with
  | case1 => exact ⟨rfl, rfl⟩
  | case2 l v _ => simp [toList]
  | case3 l v rl rv rr h _ last r hpop ih =>
    rw [hpop] at ih
    obtain ⟨x, xs, hx⟩ := List.exists_cons_of_ne_nil (toList_ne_nil rl rv rr h)
    rw [hx] at ih
    have hlast : last = (x :: xs).getLastD default := ih.1
    rw [toList_balance, ih.2]
    show last = (l.toList ++ v :: (node rl rv rr h).toList).getLastD default ∧
      _ = (l.toList ++ v :: (node rl rv rr h).toList).dropLast
    rw [hx, hlast]
    simp [List.getLast?_cons]

section Keys

variable {lt : K → K → Bool} {key : V → K} (ho : StrictWeakOrder lt) {v : V}

def Sorted (lt : K → K → Bool) (key : V → K) (t : BalancedTree V) : Prop :=
  SortedList.Sorted lt key t.toList

theorem sorted_node {x : V} {h : Nat} (hs : (node l x r h).Sorted lt key) :
    l.Sorted lt key ∧ r.Sorted lt key :=
  (SortedList.sorted_iff.mp hs).1

include ho

theorem update_toList {pick : V → V}
    {found : BalancedTree V → V → BalancedTree V → Nat → BalancedTree V}
    (hfound : ∀ l x r h, (found l x r h).toList = l.toList ++ pick x :: r.toList) :
    ∀ {t : BalancedTree V}, t.Sorted lt key →
      (update lt key v found t).toList =
        put lt key (key v) (((find lt key (key v) t.toList).map pick).getD v) t.toList
  | .empty, _ => rfl
  | .node l x r h, hs => by
    obtain ⟨hl, hr⟩ := sorted_node hs
    unfold update put
    split
    · next hlt =>
      obtain ⟨hb, ha, hf⟩ := split_left ho hs hlt
      rw [toList_balance, update_toList hfound hl]
      show _ = below lt key _ (l.toList ++ x :: r.toList) ++ _
      rw [toList, hb, ha, hf]
      simp [put]
    · next hge =>
      split
      · next hlt =>
        obtain ⟨hb, ha, hf⟩ := split_right ho hs hlt
        rw [toList_balance, update_toList hfound hr, toList, hb, ha, hf]
        simp [put]
      · next hle =>
        obtain ⟨hb, ha, hf⟩ := split_here ho hs (by simpa using hge) (by simpa using hle)
        rw [hfound, toList, hb, ha, hf]
        rfl

theorem insert_toList (hs : t.Sorted lt key) :
    (insert lt key v t).toList = SortedList.insert lt key v t.toList := by
  have hpick : (insert lt key v t).toList = put lt key (key v)
      (((find lt key (key v) t.toList).map id).getD v) t.toList :=
    update_toList ho (fun _ _ _ _ => rfl) hs
  rw [Option.map_id] at hpick
  exact hpick

theorem replace_toList (hs : t.Sorted lt key) :
    (replace lt key v t).toList = SortedList.replace lt key v t.toList := by
  have hpick : (replace lt key v t).toList = put lt key (key v)
      (((find lt key (key v) t.toList).map fun _ => v).getD v) t.toList :=
    update_toList ho (fun _ _ _ _ => rfl) hs
  rw [hpick]
  unfold SortedList.replace
  cases find lt key (key v) t.toList <;> rfl

theorem remove_toList [Inhabited V] {k : K} :
    ∀ {t : BalancedTree V}, t.Sorted lt key →
      (remove lt key k t).toList = SortedList.remove lt key k t.toList
  | .empty, _ => rfl
  | .node l x r h, hs => by
    obtain ⟨hl, hr⟩ := sorted_node hs
    unfold remove SortedList.remove
    split
    · next hlt =>
      obtain ⟨hb, ha, -⟩ := split_left ho hs hlt
      rw [toList_balance, remove_toList hl, toList, hb, ha]
      simp [SortedList.remove]
    · next hge =>
      split
      · next hlt =>
        obtain ⟨hb, ha, -⟩ := split_right ho hs hlt
        rw [toList_balance, remove_toList hr, toList, hb, ha]
        simp [SortedList.remove]
      · next hle =>
        obtain ⟨hb, ha, -⟩ := split_here ho hs (by simpa using hge) (by simpa using hle)
        rw [toList, hb, ha]
        split
        · rfl
        · simp [toList]
        · next hne =>
          obtain ⟨rl, rv, rr, rh, rfl⟩ : ∃ rl rv rr rh, r = node rl rv rr rh := by
            cases r with
            | empty => exact absurd rfl hne
            | node rl rv rr rh => exact ⟨rl, rv, rr, rh, rfl⟩
          obtain ⟨hmin, hrest⟩ := popMin_toList (node rl rv rr rh)
          obtain ⟨y, ys, hy⟩ := List.exists_cons_of_ne_nil (toList_ne_nil rl rv rr rh)
          rw [toList_balance, hmin, hrest, hy]
          rfl

end Keys

/-! ## The heights

Siblings differ by at most two. An operation below changes the height of one of
them by at most one, and balancing a pair that differs by three mends it. -/

/-- The heights are right, and those of two children differ by two at most. -/
def Balanced : BalancedTree V → Prop
  | .empty => True
  | .node l _ r h =>
    (l.Balanced ∧ r.Balanced) ∧ h = max l.height r.height + 1 ∧
      l.height ≤ r.height + 2 ∧ r.height ≤ l.height + 2

theorem join_balanced (hl : l.Balanced) (hr : r.Balanced)
    (hlr : l.height ≤ r.height + 2) (hrl : r.height ≤ l.height + 2) :
    (join l v r).Balanced := ⟨⟨hl, hr⟩, rfl, hlr, hrl⟩

@[simp]
theorem height_join (l : BalancedTree V) (v : V) (r : BalancedTree V) :
    (join l v r).height = max l.height r.height + 1 := rfl

theorem height_empty : (empty : BalancedTree V).height = 0 := rfl

theorem height_node {h : Nat} : (node l v r h).height = h := rfl

/-- Four subtrees under two joins, of which the inner two were below one node. -/
theorem double_balanced {a b c d : BalancedTree V} {x y z : V} {s h : Nat} (ha : a.Balanced)
    (hbc : (node b y c h).Balanced) (hd : d.Balanced) (hh : h = s + 2)
    (ha' : s ≤ a.height ∧ a.height ≤ s + 1) (hd' : s ≤ d.height ∧ d.height ≤ s + 1) :
    (join (join a x b) y (join c z d)).Balanced ∧
      (join (join a x b) y (join c z d)).height = s + 3 := by
  obtain ⟨⟨hb, hc⟩, hmax, hle, hge⟩ := hbc
  have hb' : s ≤ b.height + 1 ∧ b.height ≤ s + 1 := by omega
  have hc' : s ≤ c.height + 1 ∧ c.height ≤ s + 1 := by omega
  have hleft := height_join a x b
  have hright := height_join c z d
  refine ⟨join_balanced (join_balanced ha hb ?_ ?_) (join_balanced hc hd ?_ ?_) ?_ ?_, ?_⟩
  all_goals first | omega | (rw [height_join]; omega)

theorem rotateRight_balanced (hl : l.Balanced) (hr : r.Balanced) (hlr : l.height = r.height + 3) :
    (rotateRight v r l).Balanced ∧ l.height ≤ (rotateRight v r l).height ∧
      (rotateRight v r l).height ≤ l.height + 1 := by
  cases l with
  | empty =>
    rw [height_empty] at hlr
    omega
  | node ll lv lr h =>
    obtain ⟨⟨hll, hlr'⟩, hh, hle, hge⟩ := hl
    rw [height_node] at hlr ⊢
    by_cases hsingle : lr.height ≤ ll.height
    · rw [rotateRight_single hsingle]
      rw [Nat.max_eq_left hsingle] at hh
      have hnlr := height_join lr v r
      have hres := height_join ll lv (join lr v r)
      refine ⟨join_balanced hll (join_balanced hlr' hr ?_ ?_) ?_ ?_, ?_⟩ <;> omega
    · cases lr with
      | empty =>
        rw [height_empty] at hsingle
        omega
      | node lrl lrv lrr h' =>
        rw [rotateRight_double hsingle]
        rw [height_node] at hh hge hsingle
        rw [Nat.max_eq_right (Nat.le_of_not_le hsingle)] at hh
        obtain ⟨hb, hheight⟩ := double_balanced (x := lv) (z := v) (s := r.height) hll hlr' hr
          (by omega) (by omega) (by omega)
        exact ⟨hb, by omega⟩

theorem rotateLeft_balanced (hl : l.Balanced) (hr : r.Balanced) (hrl : r.height = l.height + 3) :
    (rotateLeft l v r).Balanced ∧ r.height ≤ (rotateLeft l v r).height ∧
      (rotateLeft l v r).height ≤ r.height + 1 := by
  cases r with
  | empty =>
    rw [height_empty] at hrl
    omega
  | node rl rv rr h =>
    obtain ⟨⟨hrl', hrr⟩, hh, hle, hge⟩ := hr
    rw [height_node] at hrl ⊢
    by_cases hsingle : rl.height ≤ rr.height
    · rw [rotateLeft_single hsingle]
      rw [Nat.max_eq_right hsingle] at hh
      have hnrl := height_join l v rl
      have hres := height_join (join l v rl) rv rr
      refine ⟨join_balanced (join_balanced hl hrl' ?_ ?_) hrr ?_ ?_, ?_⟩ <;> omega
    · cases rl with
      | empty =>
        rw [height_empty] at hsingle
        omega
      | node rll rlv rlr h' =>
        rw [rotateLeft_double hsingle]
        rw [height_node] at hh hle hsingle
        rw [Nat.max_eq_left (Nat.le_of_not_le hsingle)] at hh
        obtain ⟨hb, hheight⟩ := double_balanced (x := v) (z := rv) (s := l.height) hl hrl' hrr
          (by omega) (by omega) (by omega)
        exact ⟨hb, by omega⟩

/-- What balancing does to a pair of subtrees that differ by at most three. -/
theorem balance_balanced (v : V) (hl : l.Balanced) (hr : r.Balanced)
    (hlr : l.height ≤ r.height + 3) (hrl : r.height ≤ l.height + 3) : (balance l v r).Balanced ∧
      max l.height r.height ≤ (balance l v r).height ∧
      (balance l v r).height ≤ max l.height r.height + 1 ∧
      (l.height ≤ r.height + 2 → r.height ≤ l.height + 2 →
        (balance l v r).height = max l.height r.height + 1) := by
  unfold balance
  split
  · obtain ⟨hb, hle, hge⟩ := rotateRight_balanced (v := v) hl hr (by omega)
    exact ⟨hb, by omega, by omega, by omega⟩
  · split
    · obtain ⟨hb, hle, hge⟩ := rotateLeft_balanced (v := v) hl hr (by omega)
      exact ⟨hb, by omega, by omega, by omega⟩
    · refine ⟨join_balanced hl hr (by omega) (by omega), ?_⟩
      rw [height_join]
      omega

/-- A tree that lost a value. -/
def Shrinks (t t' : BalancedTree V) : Prop :=
  t'.Balanced ∧ t'.height ≤ t.height ∧ t.height ≤ t'.height + 1

/-- A tree that may have got a value. -/
def Swells (t t' : BalancedTree V) : Prop :=
  t'.Balanced ∧ t.height ≤ t'.height ∧ t'.height ≤ t.height + 1

theorem Shrinks.refl (hb : t.Balanced) : Shrinks t t :=
  ⟨hb, Nat.le_refl _, Nat.le_succ _⟩

theorem Swells.refl (hb : t.Balanced) : Swells t t :=
  ⟨hb, Nat.le_refl _, Nat.le_succ _⟩

section Node

variable {l l' r r' : BalancedTree V} {v : V} {h : Nat}

theorem shrinks_no_left (hb : (node empty v r h).Balanced) : Shrinks (node empty v r h) r := by
  obtain ⟨⟨-, hr⟩, hh, -, -⟩ := hb
  rw [height_empty] at hh
  refine ⟨hr, ?_, ?_⟩ <;> rw [height_node] <;> omega

theorem shrinks_no_right (hb : (node l v empty h).Balanced) : Shrinks (node l v empty h) l := by
  obtain ⟨⟨hl, -⟩, hh, -, -⟩ := hb
  rw [height_empty] at hh
  refine ⟨hl, ?_, ?_⟩ <;> rw [height_node] <;> omega

theorem shrinks_left (w : V) (hb : (node l v r h).Balanced) (hs : Shrinks l l') :
    Shrinks (node l v r h) (balance l' w r) := by
  obtain ⟨⟨-, hr⟩, hh, hlr, hrl⟩ := hb
  obtain ⟨hl', hle, hge⟩ := hs
  obtain ⟨hbal, hmin, hmax, hsame⟩ := balance_balanced w hl' hr (by omega) (by omega)
  refine ⟨hbal, ?_, ?_⟩ <;> rw [height_node] <;> omega

theorem shrinks_right (w : V) (hb : (node l v r h).Balanced) (hs : Shrinks r r') :
    Shrinks (node l v r h) (balance l w r') := by
  obtain ⟨⟨hl, -⟩, hh, hlr, hrl⟩ := hb
  obtain ⟨hr', hle, hge⟩ := hs
  obtain ⟨hbal, hmin, hmax, hsame⟩ := balance_balanced w hl hr' (by omega) (by omega)
  refine ⟨hbal, ?_, ?_⟩ <;> rw [height_node] <;> omega

theorem swells_left (hb : (node l v r h).Balanced) (hs : Swells l l') :
    Swells (node l v r h) (balance l' v r) := by
  obtain ⟨⟨-, hr⟩, hh, hlr, hrl⟩ := hb
  obtain ⟨hl', hle, hge⟩ := hs
  obtain ⟨hbal, hmin, hmax, hsame⟩ := balance_balanced v hl' hr (by omega) (by omega)
  refine ⟨hbal, ?_, ?_⟩ <;> rw [height_node] <;> omega

theorem swells_right (hb : (node l v r h).Balanced) (hs : Swells r r') :
    Swells (node l v r h) (balance l v r') := by
  obtain ⟨⟨hl, -⟩, hh, hlr, hrl⟩ := hb
  obtain ⟨hr', hle, hge⟩ := hs
  obtain ⟨hbal, hmin, hmax, hsame⟩ := balance_balanced v hl hr' (by omega) (by omega)
  refine ⟨hbal, ?_, ?_⟩ <;> rw [height_node] <;> omega

end Node

theorem popMin_shrinks [Inhabited V] (hb : t.Balanced) : Shrinks t t.popMin.2 := by
  fun_induction popMin t with
  | case1 => exact Shrinks.refl hb
  | case2 v r h => exact shrinks_no_left hb
  | case3 ll lv lr h v r _ first l hpop ih =>
    rw [hpop] at ih
    exact shrinks_left v hb (ih hb.1.1)

theorem popMax_shrinks [Inhabited V] (hb : t.Balanced) : Shrinks t t.popMax.2 := by
  fun_induction popMax t with
  | case1 => exact Shrinks.refl hb
  | case2 l v h => exact shrinks_no_right hb
  | case3 l v rl rv rr h _ last r hpop ih =>
    rw [hpop] at ih
    exact shrinks_right v hb (ih hb.1.2)

variable (lt : K → K → Bool) (key : V → K)

theorem update_swells {found : BalancedTree V → V → BalancedTree V → Nat → BalancedTree V}
    (hfound : ∀ l x r h, (node l x r h).Balanced → Swells (node l x r h) (found l x r h)) :
    ∀ {t : BalancedTree V}, t.Balanced → Swells t (update lt key v found t)
  | .empty, _ =>
    ⟨join_balanced trivial trivial (by omega) (by omega), Nat.zero_le _, Nat.le_refl _⟩
  | .node l x r h, hb => by
    unfold update
    split
    · exact swells_left hb (update_swells hfound hb.1.1)
    · split
      · exact swells_right hb (update_swells hfound hb.1.2)
      · exact hfound l x r h hb

theorem insert_swells (v : V) (hb : t.Balanced) : Swells t (insert lt key v t) :=
  update_swells lt key (fun _ _ _ _ hb => Swells.refl hb) hb

theorem replace_swells (v : V) (hb : t.Balanced) : Swells t (replace lt key v t) := by
  refine update_swells lt key (fun l x r h hb => ?_) hb
  obtain ⟨⟨hl, hr⟩, hh, hlr, hrl⟩ := hb
  refine ⟨join_balanced hl hr hlr hrl, ?_, ?_⟩ <;> rw [height_node, height_join] <;> omega

theorem remove_shrinks [Inhabited V] (k : K) :
    ∀ {t : BalancedTree V}, t.Balanced → Shrinks t (remove lt key k t)
  | .empty, hb => Shrinks.refl hb
  | .node l x r h, hb => by
    unfold remove
    split
    · exact shrinks_left x hb (remove_shrinks k hb.1.1)
    · split
      · exact shrinks_right x hb (remove_shrinks k hb.1.2)
      · split
        · exact shrinks_no_left hb
        · exact shrinks_no_right hb
        · exact shrinks_right _ hb (popMin_shrinks hb.1.2)

end BalancedTree
