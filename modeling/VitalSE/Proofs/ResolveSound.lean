import Mathlib.Data.List.Pairwise
import VitalSE.Proofs.SolverSound
import VitalSE.Solver.Ideal

/-!
# Resolving a pointer

An address is, under each model of the path condition, a number; `Points` is
the set of these. The bounds checks decide properties of that number, so an
answer of the solver to one of them is a fact about `Points`. The objects are
in the order of their addresses and disjoint, so that the searches may stop
where they do: `resolve` gives exactly the objects that the address may point
into.
-/

namespace VitalSE

variable {σ : Valuation} {A : Valuation → Prop} {cs : List Expr} {address e : Expr}
  {w n a : Nat} {opt : Bool} {ctx : Context} {mo : MemoryObject} {p : Nat → Prop}
  {rl l l' : List ObjectPair} {S : Type} {Inv : S → Prop} {t : TimingSolver S} {s : S}
  {op : ObjectPair} {May : ObjectPair → Prop}

/-! ## Where an object is -/

namespace MemoryObject

/-- The addresses that are the object's alone. An empty object has one too: the
allocator gives every object at least one byte. -/
def Covers (mo : MemoryObject) (a : Nat) : Prop :=
  mo.address ≤ a ∧ a < mo.address + max mo.size 1

/-- All of the bytes from `a` on are in the object. -/
def Contains (mo : MemoryObject) (n a : Nat) : Prop :=
  mo.address ≤ a ∧ a + n ≤ mo.address + mo.size

instance : DecidablePred mo.Covers :=
  fun _ => inferInstanceAs (Decidable (_ ∧ _))

instance {n : Nat} : DecidablePred (mo.Contains n) :=
  fun _ => inferInstanceAs (Decidable (_ ∧ _))

theorem Contains.covers (h : mo.Contains n a) (hn : 0 < n) : mo.Covers a := by
  obtain ⟨h₁, h2⟩ := h
  exact ⟨h₁, by omega⟩

/-- The objects have no address in common. -/
def Disjoint (mo mo' : MemoryObject) : Prop :=
  ∀ a, mo.Covers a → ¬mo'.Covers a

/-- The object ends within the address space of the target. -/
def Fits (ctx : Context) (mo : MemoryObject) : Prop :=
  mo.address + max mo.size 1 ≤ 2 ^ ctx.pointerWidth

end MemoryObject

/-- The objects of an address space: its map is ordered by address, they are
disjoint, and each fits. -/
structure AddressSpace.Layout (ctx : Context) (objects : List ObjectPair) :
    Prop where
  ordered : objects.Pairwise fun p q => p.1.address < q.1.address
  disjoint : objects.Pairwise fun p q => p.1.Disjoint q.1
  fits : ∀ p ∈ objects, p.1.Fits ctx

/-! ## What a query about an address decides -/

/-- The numbers that the address is under the models of the constraints. -/
def Points (A : Valuation → Prop) (cs : List Expr) (address : Expr) (w a : Nat) :
    Prop :=
  ∃ σ, A σ ∧ AllHold σ cs ∧ ∃ x : BitVec w, Denotes σ address x ∧ x.toNat = a

/-- The boolean `e` says whether `p` holds of the address. -/
def Decides (address : Expr) (w : Nat) (e : Expr) (p : Nat → Prop)
    [DecidablePred p] : Prop :=
  ∀ (σ : Valuation) (x : BitVec w), Denotes σ address x →
    Denotes σ e (BitVec.ofBool (decide (p x.toNat)))

namespace Decides

variable [DecidablePred p]

theorem holds_iff (h : Decides address w e p) {x : BitVec w}
    (hx : Denotes σ address x) : Holds σ e ↔ p x.toNat := by
  have hd := h σ x hx
  constructor
  · intro hh
    by_contra hn
    have := hd.unique hh
    simp [hn] at this
  · intro hp
    rw [decide_eq_true hp] at hd
    exact hd

theorem fails_iff (h : Decides address w e p) {x : BitVec w}
    (hx : Denotes σ address x) : Fails σ e ↔ ¬p x.toNat := by
  rw [← h.holds_iff hx]
  refine ⟨fun hf hh => hh.not_fails hf, fun hn => ?_⟩
  have hd := h σ x hx
  rw [decide_eq_false (mt (h.holds_iff hx).mpr hn)] at hd
  exact hd

/-- What is decided of a function of the address. -/
theorem comp {q : Nat → Prop} [DecidablePred q] {e' : Expr} {g : BitVec w → BitVec w}
    (h : Decides e' w e q) (hg : ∀ σ x, Denotes σ address x → Denotes σ e' (g x))
    (hq : ∀ x, q (g x).toNat ↔ p x.toNat) : Decides address w e p := by
  intro σ x hx
  rw [← decide_eq_decide.mpr (hq x)]
  exact h σ _ (hg σ x hx)

section

variable (h : Decides address w e p) (ha : Valued A cs address w)

include h ha

theorem valued : Valued A cs e 1 := by
  intro σ hA hσ
  obtain ⟨x, hx⟩ := ha σ hA hσ
  exact ⟨_, h σ x hx⟩

theorem entailed_iff : Query.Entailed A ⟨cs, e⟩ ↔ ∀ a, Points A cs address w a → p a := by
  constructor
  · rintro hent _ ⟨σ, hA, hσ, x, hx, rfl⟩
    exact (h.holds_iff hx).mp (hent σ hA hσ)
  · intro hall σ hA hσ
    obtain ⟨x, hx⟩ := ha σ hA hσ
    exact (h.holds_iff hx).mpr (hall _ ⟨σ, hA, hσ, x, hx, rfl⟩)

theorem refuted_iff : Query.Refuted A ⟨cs, e⟩ ↔ ∀ a, Points A cs address w a → ¬p a := by
  constructor
  · rintro href _ ⟨σ, hA, hσ, x, hx, rfl⟩
    exact (h.fails_iff hx).mp (href σ hA hσ)
  · intro hall σ hA hσ
    obtain ⟨x, hx⟩ := ha σ hA hσ
    exact (h.fails_iff hx).mpr (hall _ ⟨σ, hA, hσ, x, hx, rfl⟩)

theorem not_refuted_iff : ¬Query.Refuted A ⟨cs, e⟩ ↔ ∃ a, Points A cs address w a ∧ p a := by
  rw [h.refuted_iff ha]
  simp only [not_forall, not_not, exists_prop]

end

end Decides

/-- A comparison with a constant. -/
theorem cmp_decides {k : CmpKind} [DecidablePred p]
    (hs : ∀ σ, Simplifies σ (.cmp k address (Expr.const n w)) e)
    (hp : ∀ x : BitVec w, k.apply x (BitVec.ofNat w n) = decide (p x.toNat)) :
    Decides address w e p := by
  intro σ x hx
  rw [← hp x]
  exact (hs σ).value (denotes_cmp.mpr ⟨w, x, _, hx, denotes_const.mpr ⟨hx.typed.pos, rfl⟩, rfl⟩)

theorem isZero_decides (opt : Bool) :
    Decides e w (EqExpr.create opt e (Expr.const 0 w)) (· = 0) := by
  refine cmp_decides (fun σ => EqExpr.create_simplifies) fun x => ?_
  rw [CmpKind.apply, Bool.eq_iff_iff, beq_iff_eq, decide_eq_true_iff, ← BitVec.toNat_inj]
  simp

theorem below_decides (opt : Bool) (hn : n < 2 ^ w) :
    Decides e w (UltExpr.create opt e (Expr.const n w)) (· < n) := by
  refine cmp_decides (fun σ => UltExpr.create_simplifies) fun x => ?_
  rw [CmpKind.apply, BitVec.ult, BitVec.toNat_ofNat, Nat.mod_eq_of_lt hn]

/-! ## The bounds checks -/

namespace MemoryObject

theorem denotes_getOffsetExpr (opt : Bool) (mo : MemoryObject)
    {x : BitVec ctx.pointerWidth} (hx : Denotes σ address x) :
    Denotes σ (mo.getOffsetExpr opt ctx address) (x - BitVec.ofNat ctx.pointerWidth mo.address) :=
  SubExpr.create_simplifies.value (denotes_binary.mpr
    ⟨x, _, hx, denotes_const.mpr ⟨hx.typed.pos, rfl⟩, rfl⟩)

/-- How the offset of an address tells where it is. -/
theorem offset_lt_iff (x : BitVec w) {base : Nat} (h : base + n ≤ 2 ^ w) :
    (x - BitVec.ofNat w base).toNat < n ↔ base ≤ x.toNat ∧ x.toNat < base + n := by
  have hx := x.isLt
  rcases Nat.eq_zero_or_pos n with rfl | hn
  · omega
  have hb : base < 2 ^ w := by omega
  rw [BitVec.toNat_sub, BitVec.toNat_ofNat, Nat.mod_eq_of_lt hb]
  rcases Nat.lt_or_ge x.toNat base with hlt | hge
  · rw [Nat.mod_eq_of_lt (by omega)]
    omega
  · rw [show 2 ^ w - base + x.toNat = x.toNat - base + 2 ^ w by omega,
      Nat.add_mod_right, Nat.mod_eq_of_lt (by omega)]
    omega

/-- The checks of resolution ask whether the object covers the address. -/
theorem getBoundsCheckPointer_decides (opt : Bool) (address : Expr) (hw : 32 ≤ ctx.pointerWidth)
    (hfits : mo.Fits ctx) :
    Decides address ctx.pointerWidth (mo.getBoundsCheckPointer opt ctx address) mo.Covers := by
  unfold getBoundsCheckPointer getBoundsCheckOffset
  by_cases h0 : mo.size = 0
  · rw [if_pos h0]
    refine (isZero_decides opt).comp (fun σ x => denotes_getOffsetExpr opt mo) fun x => ?_
    rw [← Nat.lt_one_iff, show 1 = max mo.size 1 by omega]
    exact offset_lt_iff x hfits
  · rw [if_neg h0]
    have hsize : mo.size < 2 ^ ctx.pointerWidth :=
      Nat.lt_of_lt_of_le mo.size_lt (Nat.pow_le_pow_right (by decide) hw)
    refine (below_decides opt hsize).comp (fun σ x => denotes_getOffsetExpr opt mo)
      fun x => ?_
    rw [show mo.size = max mo.size 1 by omega]
    exact offset_lt_iff x hfits

/-- The checks of an access ask whether the object contains all its bytes. -/
theorem getBoundsCheckPointerBytes_decides (opt : Bool) (address : Expr)
    (hn : 0 < n) (hw : 32 ≤ ctx.pointerWidth) (hfits : mo.Fits ctx) :
    Decides address ctx.pointerWidth
      (mo.getBoundsCheckPointerBytes opt ctx address n) (mo.Contains n) := by
  unfold getBoundsCheckPointerBytes getBoundsCheckOffsetBytes
  by_cases hle : n ≤ mo.size
  · rw [if_pos hle]
    have hsize : mo.size < 2 ^ ctx.pointerWidth :=
      Nat.lt_of_lt_of_le mo.size_lt (Nat.pow_le_pow_right (by decide) hw)
    have hend : mo.address + (mo.size - n + 1) ≤ 2 ^ ctx.pointerWidth := by
      unfold Fits at hfits
      omega
    refine (below_decides opt (by omega)).comp
      (fun σ x => denotes_getOffsetExpr opt mo) fun x => ?_
    rw [offset_lt_iff x hend, Contains]
    omega
  · rw [if_neg hle]
    refine fun σ x _ => denotes_const.mpr ⟨by decide, ?_⟩
    rw [decide_eq_false]
    · rfl
    · rintro ⟨h₁, h2⟩
      omega

theorem Fits.address_lt (h : mo.Fits ctx) : mo.address < 2 ^ ctx.pointerWidth := by
  unfold Fits at h
  omega

theorem uge_getBaseExpr_decides (opt : Bool) (address : Expr) (hfits : mo.Fits ctx) :
    Decides address ctx.pointerWidth
      (UgeExpr.create opt address (mo.getBaseExpr ctx)) (mo.address ≤ ·) := by
  refine cmp_decides (fun σ => UgeExpr.create_simplifies) fun x => ?_
  rw [CmpKind.apply, BitVec.ule, BitVec.toNat_ofNat, Nat.mod_eq_of_lt hfits.address_lt]

theorem ult_getBaseExpr_decides (opt : Bool) (address : Expr) (hfits : mo.Fits ctx) :
    Decides address ctx.pointerWidth
      (UltExpr.create opt address (mo.getBaseExpr ctx)) (· < mo.address) :=
  below_decides opt hfits.address_lt

end MemoryObject

/-! ## The searches -/

section

variable [DecidablePred p]

section

variable (h : t.solver.Correct A False Inv) (hcs : PathCondition A cs)
  (ha : Valued A cs address w) (hd : Decides address w e p)

include h hcs ha hd

theorem TimingSolver.mustBeTrue_decides (hs : Inv s) :
    Runs (t.mustBeTrue cs e) s fun r s' => Inv s' ∧ ∃ b, r = some b ∧
      (b = true ↔ ∀ a, Points A cs address w a → p a) := by
  refine (mustBeTrue_runs h hcs (hd.valued ha) hs).imp ?_
  rintro (_ | b) s' ⟨hs', hr⟩
  · exact hr.elim
  · exact ⟨hs', b, rfl, Iff.trans hr (hd.entailed_iff ha)⟩

theorem TimingSolver.mayBeTrue_decides (hs : Inv s) :
    Runs (t.mayBeTrue cs e) s fun r s' => Inv s' ∧ ∃ b, r = some b ∧
      (b = true ↔ ∃ a, Points A cs address w a ∧ p a) := by
  refine (mayBeTrue_runs h hcs (hd.valued ha) hs).imp ?_
  rintro (_ | b) s' ⟨hs', hr⟩
  · exact hr.elim
  · exact ⟨hs', b, rfl, Iff.trans hr (hd.not_refuted_iff ha)⟩

end

end

namespace AddressSpace

/-- The address may point into the object. -/
def MayPoint (A : Valuation → Prop) (cs : List Expr) (address : Expr) (w : Nat)
    (op : ObjectPair) : Prop :=
  ∃ a, Points A cs address w a ∧ op.1.Covers a

/-- The address certainly points into the object. -/
def MustPoint (A : Valuation → Prop) (cs : List Expr) (address : Expr) (w : Nat)
    (op : ObjectPair) : Prop :=
  ∀ a, Points A cs address w a → op.1.Covers a

namespace Layout

variable {objects : List ObjectPair} {op' : ObjectPair}

theorem unique (h : Layout ctx objects) (hop : op ∈ objects)
    (hop' : op' ∈ objects) (ha : op.1.Covers a) (ha' : op'.1.Covers a) : op = op' := by
  by_contra hne
  have : Std.Symm fun p q : ObjectPair => p.1.Disjoint q.1 :=
    ⟨fun p q hpq a ha ha' => hpq a ha' ha⟩
  exact h.disjoint.forall hop hop' hne a ha ha'

/-- What comes first ends before the rest starts. -/
theorem separated (h : Layout ctx objects) : objects.Pairwise fun p q =>
    p.1.address + max p.1.size 1 ≤ q.1.address := by
  refine h.ordered.imp₂ (fun p q hlt hdisjoint => ?_) h.disjoint
  by_contra hend
  exact hdisjoint q.1.address ⟨hlt.le, by omega⟩ ⟨le_rfl, by omega⟩

end Layout

/-- The result of a search in `l`: nothing is lost, what is added is from `l`,
each at most once, and may be pointed at; and what may be pointed at in `l` is
found, unless an object that certainly is pointed at was. -/
structure Searched (May Must : ObjectPair → Prop) (l rl rl' : List ObjectPair) :
    Prop where
  added : ∃ new, rl' = rl ++ new ∧ new.Subperm l ∧ ∀ op ∈ new, May op
  finds : ∀ op ∈ l, May op → op ∈ rl' ∨ ∃ op' ∈ rl', Must op'

namespace Searched

variable {Must : ObjectPair → Prop} {rl' rl'' : List ObjectPair}

theorem keeps (h : Searched May Must l rl rl') : ∀ op ∈ rl, op ∈ rl' := by
  obtain ⟨new, rfl, -, -⟩ := h.added
  exact fun op hop => List.mem_append.mpr (.inl hop)

/-- A search may stop where nothing is left to be found. -/
theorem stop (h : ∀ op ∈ l, May op → ∃ op' ∈ rl, Must op') : Searched May Must l rl rl :=
  ⟨⟨[], by simp, List.nil_subperm, by simp⟩,
    fun op hop hmay => .inr (h op hop hmay)⟩

theorem nil : Searched May Must [] rl rl := .stop (by simp)

theorem single (h : May op) : Searched May Must [op] rl (rl ++ [op]) :=
  ⟨⟨[op], rfl, List.Subperm.refl _, by simpa using h⟩,
    fun op' hop' _ => .inl (List.mem_append.mpr (.inr hop'))⟩

theorem append (h₁ : Searched May Must l rl rl') (h2 : Searched May Must l' rl' rl'') :
    Searched May Must (l ++ l') rl rl'' where
  added := by
    obtain ⟨new1, rfl, hsub1, hmay1⟩ := h₁.added
    obtain ⟨new2, rfl, hsub2, hmay2⟩ := h2.added
    refine ⟨new1 ++ new2, List.append_assoc .., hsub1.append hsub2, ?_⟩
    intro op hop
    exact (List.mem_append.mp hop).elim (hmay1 op) (hmay2 op)
  finds op hop hmay := by
    rcases List.mem_append.mp hop with hop | hop
    · rcases h₁.finds op hop hmay with hm | ⟨op', hm, hmust⟩
      · exact .inl (h2.keeps _ hm)
      · exact .inr ⟨op', h2.keeps _ hm, hmust⟩
    · exact h2.finds op hop hmay

theorem cons (h : Searched May Must [op] rl rl') (h' : Searched May Must l rl' rl'') :
    Searched May Must (op :: l) rl rl'' := h.append h'

/-- The order of the search does not matter for what it has found. -/
theorem perm (h : Searched May Must l rl rl') (hp : l.Perm l') : Searched May Must l' rl rl' where
  added := by
    obtain ⟨new, heq, hsub, hmay⟩ := h.added
    exact ⟨new, heq, hsub.trans hp.subperm, hmay⟩
  finds op hop := h.finds op (hp.mem_iff.mpr hop)

end Searched

/-- The result of a search for the objects that the address points into. -/
def Found (A : Valuation → Prop) (cs : List Expr) (address : Expr) (w : Nat) :=
  Searched (MayPoint A cs address w) (MustPoint A cs address w)

/-- The result of a search in `l` for one object: one that may be pointed at,
and none only where there is none. -/
structure Chosen (May : ObjectPair → Prop) (l : List ObjectPair)
    (o : Option ObjectPair) : Prop where
  found : ∀ op ∈ o, op ∈ l ∧ May op
  none : o = none → ∀ op ∈ l, ¬May op

namespace Chosen

variable {o : Option ObjectPair}

theorem some (hop : op ∈ l) (h : May op) : Chosen May l (some op) :=
  ⟨fun op' hop' => Option.mem_some_iff.mp hop' ▸ ⟨hop, h⟩, by simp⟩

theorem absent (h : ∀ op ∈ l, ¬May op) : Chosen May l .none :=
  ⟨by simp, fun _ => h⟩

theorem append (hl : ∀ op ∈ l, ¬May op) (h : Chosen May l' o) : Chosen May (l ++ l') o where
  found op hop := ⟨List.mem_append.mpr (.inr (h.found op hop).1), (h.found op hop).2⟩
  none ho op hop := (List.mem_append.mp hop).elim (hl op) (h.none ho op)

theorem cons (hop : ¬May op) (h : Chosen May l o) : Chosen May (op :: l) o :=
  append (l := [op]) (by simpa using hop) h

end Chosen

section

variable (h : t.solver.Correct A False Inv) (hcs : PathCondition A cs)
  (ha : Valued A cs address ctx.pointerWidth) (hw : 32 ≤ ctx.pointerWidth)

include h hcs ha hw

theorem checkPointerInObject_runs (hfits : op.1.Fits ctx) (hs : Inv s) :
    Runs (checkPointerInObject ctx t cs address op rl 0) s fun r s' => Inv s' ∧ r.1 ≠ .incomplete ∧
      Found A cs address ctx.pointerWidth [op] rl r.2 ∧ (r.1 = .complete →
        ∃ op' ∈ r.2, MustPoint A cs address ctx.pointerWidth op') := by
  have hd := MemoryObject.getBoundsCheckPointer_decides t.constArrayOpt
    address hw hfits
  refine .bind (t.mayBeTrue_decides h hcs ha hd hs) ?_
  rintro _ s1 ⟨hs1, b, rfl, hb⟩
  cases b with
  | false =>
    refine .pure ⟨hs1, by simp, .stop fun op' hop' hmay => ?_, by simp⟩
    rw [List.mem_singleton.mp hop'] at hmay
    exact absurd (hb.mpr hmay) (by simp)
  | true =>
    have hadd : Found A cs address ctx.pointerWidth [op] rl (rl ++ [op]) :=
      .single (hb.mp rfl)
    simp only
    by_cases h1 : (rl ++ [op]).length = 1
    · rw [if_pos h1]
      refine .bind (t.mustBeTrue_decides h hcs ha hd hs1) ?_
      rintro _ s2 ⟨hs2, b, rfl, hb'⟩
      cases b with
      | true =>
        exact .pure ⟨hs2, by simp, hadd, fun _ => ⟨op, by simp, hb'.mp rfl⟩⟩
      | false => exact .pure ⟨hs2, by simp, hadd, by simp⟩
    · rw [if_neg h1, if_neg (by simp)]
      exact .pure ⟨hs1, by simp, hadd, by simp⟩

section

variable (hfits : ∀ op ∈ l, op.1.Fits ctx)

include hfits

/-- `l` goes downwards here. Once the address is certainly not below an object,
it points into none of those before. -/
theorem resolveBackward_runs
    (hsep : l.Pairwise fun p q => q.1.address + max q.1.size 1 ≤ p.1.address) (hs : Inv s) :
    Runs (resolveBackward ctx t cs address 0 l rl) s fun r s' => Inv s' ∧ r.1 ≠ .incomplete ∧
      Found A cs address ctx.pointerWidth l rl r.2 ∧ (r.1 = .complete →
        ∃ op' ∈ r.2, MustPoint A cs address ctx.pointerWidth op') := by
  induction l generalizing rl s with
  | nil => exact .pure ⟨hs, by simp, .nil, by simp⟩
  | cons op l ih =>
    obtain ⟨hhead, hsep⟩ := List.pairwise_cons.mp hsep
    have hfit := hfits op (by simp)
    refine .bind (checkPointerInObject_runs h hcs ha hw hfit hs) ?_
    rintro ⟨r, rl1⟩ s1 ⟨hs1, hr, hsearch, hmust⟩
    cases r with
    | incomplete => exact absurd rfl hr
    | complete =>
      exact .pure ⟨hs1, hr, hsearch.cons (.stop fun _ _ _ => hmust rfl), hmust⟩
    | unresolved =>
      have hd := MemoryObject.uge_getBaseExpr_decides t.constArrayOpt address hfit
      refine .bind (t.mustBeTrue_decides h hcs ha hd hs1) ?_
      rintro _ s2 ⟨hs2, b, rfl, hb⟩
      cases b with
      | true =>
        refine .pure ⟨hs2, by simp,
          hsearch.cons (.stop fun op' hop' hmay => ?_), by simp⟩
        obtain ⟨a, hpt, hlo, hhi⟩ := hmay
        have := hb.mp rfl a hpt
        have := hhead op' hop'
        omega
      | false =>
        refine (ih (fun op' hop' => hfits op' (by simp [hop']))
          hsep hs2).imp ?_
        rintro r s3 ⟨hs3, hr, hsearch', hmust'⟩
        exact ⟨hs3, hr, hsearch.cons hsearch', hmust'⟩

/-- `l` goes upwards here. Once the address is certainly below an object, it
points neither into that one nor into those after it. -/
theorem resolveForward_runs
    (hsep : l.Pairwise fun p q => p.1.address + max p.1.size 1 ≤ q.1.address) (hs : Inv s) :
    Runs (resolveForward ctx t cs address 0 l rl) s fun r s' => Inv s' ∧ r.1 ≠ .incomplete ∧
      Found A cs address ctx.pointerWidth l rl r.2 := by
  induction l generalizing rl s with
  | nil => exact .pure ⟨hs, by simp, .nil⟩
  | cons op l ih =>
    obtain ⟨hhead, hsep⟩ := List.pairwise_cons.mp hsep
    have hfit := hfits op (by simp)
    have hd := MemoryObject.ult_getBaseExpr_decides t.constArrayOpt address hfit
    refine .bind (t.mustBeTrue_decides h hcs ha hd hs) ?_
    rintro _ s1 ⟨hs1, b, rfl, hb⟩
    cases b with
    | true =>
      refine .pure ⟨hs1, by simp, .stop fun op' hop' hmay => ?_⟩
      obtain ⟨a, hpt, hlo, hhi⟩ := hmay
      have := hb.mp rfl a hpt
      rcases List.mem_cons.mp hop' with rfl | hop'
      · omega
      · have := hhead op' hop'
        omega
    | false =>
      refine .bind (checkPointerInObject_runs h hcs ha hw hfit hs1) ?_
      rintro ⟨r, rl1⟩ s2 ⟨hs2, hr, hsearch, hmust⟩
      cases r with
      | incomplete => exact absurd rfl hr
      | complete =>
        exact .pure ⟨hs2, hr, hsearch.cons (.stop fun _ _ _ => hmust rfl)⟩
      | unresolved =>
        refine (ih (fun op' hop' => hfits op' (by simp [hop']))
          hsep hs2).imp ?_
        rintro r s3 ⟨hs3, hr, hsearch'⟩
        exact ⟨hs3, hr, hsearch.cons hsearch'⟩

theorem resolveOneBackward_runs
    (hsep : l.Pairwise fun p q => q.1.address + max q.1.size 1 ≤ p.1.address) (hs : Inv s) :
    Runs (resolveOneBackward ctx t cs address l) s fun r s' => Inv s' ∧ ∃ o, r = some o ∧
        Chosen (MayPoint A cs address ctx.pointerWidth) l o := by
  induction l generalizing s with
  | nil => exact .pure ⟨hs, none, rfl, .absent (by simp)⟩
  | cons op l ih =>
    obtain ⟨hhead, hsep⟩ := List.pairwise_cons.mp hsep
    have hfit := hfits op (by simp)
    refine .bind (t.mayBeTrue_decides h hcs ha
      (MemoryObject.getBoundsCheckPointer_decides _ _ hw hfit) hs) ?_
    rintro _ s1 ⟨hs1, b, rfl, hmay⟩
    cases b with
    | true =>
      exact .pure ⟨hs1, some op, rfl, .some (by simp) (hmay.mp rfl)⟩
    | false =>
      have hop : ¬MayPoint A cs address ctx.pointerWidth op :=
        fun hm => Bool.noConfusion (hmay.mpr hm)
      refine .bind (t.mustBeTrue_decides h hcs ha
        (MemoryObject.uge_getBaseExpr_decides _ _ hfit) hs1) ?_
      rintro _ s2 ⟨hs2, b, rfl, hb⟩
      cases b with
      | true =>
        refine .pure ⟨hs2, none, rfl, .cons hop (.absent ?_)⟩
        rintro op' hop' ⟨a, hpt, hlo, hhi⟩
        have := hb.mp rfl a hpt
        have := hhead op' hop'
        omega
      | false =>
        refine (ih (fun op' hop' => hfits op' (by simp [hop'])) hsep
          hs2).imp ?_
        rintro _ s3 ⟨hs3, o, rfl, ho⟩
        exact ⟨hs3, o, rfl, .cons hop ho⟩

theorem resolveOneForward_runs
    (hsep : l.Pairwise fun p q => p.1.address + max p.1.size 1 ≤ q.1.address) (hs : Inv s) :
    Runs (resolveOneForward ctx t cs address l) s fun r s' => Inv s' ∧ ∃ o, r = some o ∧
        Chosen (MayPoint A cs address ctx.pointerWidth) l o := by
  induction l generalizing s with
  | nil => exact .pure ⟨hs, none, rfl, .absent (by simp)⟩
  | cons op l ih =>
    obtain ⟨hhead, hsep⟩ := List.pairwise_cons.mp hsep
    have hfit := hfits op (by simp)
    refine .bind (t.mustBeTrue_decides h hcs ha
      (MemoryObject.ult_getBaseExpr_decides _ _ hfit) hs) ?_
    rintro _ s1 ⟨hs1, b, rfl, hb⟩
    cases b with
    | true =>
      refine .pure ⟨hs1, none, rfl, .absent ?_⟩
      rintro op' hop' ⟨a, hpt, hlo, hhi⟩
      have := hb.mp rfl a hpt
      rcases List.mem_cons.mp hop' with rfl | hop'
      · omega
      · have := hhead op' hop'
        omega
    | false =>
      refine .bind (t.mayBeTrue_decides h hcs ha
        (MemoryObject.getBoundsCheckPointer_decides _ _ hw hfit) hs1) ?_
      rintro _ s2 ⟨hs2, b, rfl, hmay⟩
      cases b with
      | true =>
        exact .pure ⟨hs2, some op, rfl, .some (by simp) (hmay.mp rfl)⟩
      | false =>
        refine (ih (fun op' hop' => hfits op' (by simp [hop'])) hsep
          hs2).imp ?_
        rintro _ s3 ⟨hs3, o, rfl, ho⟩
        exact ⟨hs3, o, rfl, .cons (fun hm => Bool.noConfusion (hmay.mpr hm)) ho⟩

end

end

/-! ## Resolution -/

section

variable {as : AddressSpace}

theorem splitAt_append (as : AddressSpace) (a : Nat) :
    (as.splitAt a).1 ++ (as.splitAt a).2 = as.objects := by
  simp [splitAt, List.span_eq_takeWhile_dropWhile]

theorem lookupPrevious_mem (h : as.lookupPrevious a = some op) : op ∈ as.objects := by
  rw [← splitAt_append as a]
  exact List.mem_append.mpr (.inl (List.mem_of_getLast? h))

theorem address_le_of_mem_splitAt (h : op ∈ (as.splitAt a).1) : op.1.address ≤ a := by
  simp only [splitAt, List.span_eq_takeWhile_dropWhile] at h
  simpa using List.all_eq_true.mp List.all_takeWhile op h

theorem lookupPrevious_le (h : as.lookupPrevious a = some op) : op.1.address ≤ a :=
  address_le_of_mem_splitAt (List.mem_of_getLast? h)

theorem resolveConstant_some (h : as.resolveConstant a = some op) :
    op ∈ as.objects ∧ op.1.Covers a := by
  unfold resolveConstant at h
  split at h
  · next hprev =>
    have hle := lookupPrevious_le hprev
    split at h
    · next hin =>
      cases h
      refine ⟨lookupPrevious_mem hprev, hle, ?_⟩
      simp only at hle ⊢
      omega
    · cases h
  · cases h

/-- The object at or before a covered address is the one that covers it. -/
theorem lookupPrevious_eq (hl : Layout ctx as.objects) (hop : op ∈ as.objects)
    (ha : op.1.Covers a) : as.lookupPrevious a = some op := by
  have hsep := hl.separated
  have happ := splitAt_append as a
  rw [← happ] at hsep hop
  obtain ⟨hpre, -, hcross⟩ := List.pairwise_append.mp hsep
  have hbefore : ∀ q ∈ (as.splitAt a).1, q.1.address ≤ a :=
    fun q => address_le_of_mem_splitAt
  have hmem : op ∈ (as.splitAt a).1 := by
    refine (List.mem_append.mp hop).resolve_right fun hafter => ?_
    -- The first object that was left is above the address, so all are.
    obtain ⟨q, rest, hq⟩ := List.exists_cons_of_ne_nil (List.ne_nil_of_mem hafter)
    have hqa : ¬q.1.address ≤ a := by
      have := List.head?_dropWhile_not (fun op : ObjectPair =>
        decide (op.1.address ≤ a)) as.objects
      simp only [splitAt, List.span_eq_takeWhile_dropWhile] at hq
      rw [hq] at this
      simpa using this
    have hrest := (List.pairwise_append.mp hsep).2.1
    rw [hq] at hafter hrest
    obtain ⟨hlo, hhi⟩ := ha
    rcases List.mem_cons.mp hafter with rfl | hafter
    · omega
    · have := (List.pairwise_cons.mp hrest).1 op hafter
      omega
  -- An object after `op` would start at the address or before it.
  obtain ⟨l1, l2, hsplit⟩ := List.append_of_mem hmem
  unfold lookupPrevious
  rw [hsplit] at hpre hbefore ⊢
  cases l2 with
  | nil => simp
  | cons q l2 =>
    have h₁ := (List.pairwise_cons.mp (List.pairwise_append.mp hpre).2.1).1 q
      (by simp)
    have h2 := hbefore q (by simp)
    obtain ⟨hlo, hhi⟩ := ha
    omega

theorem resolveConstant_eq (hl : Layout ctx as.objects) (hop : op ∈ as.objects)
    (ha : op.1.Covers a) : as.resolveConstant a = some op := by
  obtain ⟨mo, os⟩ := op
  obtain ⟨hlo, hhi⟩ := ha
  unfold resolveConstant
  rw [lookupPrevious_eq hl hop ⟨hlo, hhi⟩]
  simp only at hlo hhi
  exact if_pos (by omega)

/-- A constant address points to one number. -/
theorem points_constant {c : APInt} (hcs : PathCondition A cs) (hc : Valued A cs (.constant c) w) :
    Points A cs (.constant c) w a ↔ a = c.toNat := by
  constructor
  · rintro ⟨σ, -, -, x, hx, rfl⟩
    obtain ⟨-, rfl⟩ := denotes_constant.mp hx
    rfl
  · rintro rfl
    obtain ⟨σ, hA, hσ⟩ := hcs.satisfiable
    obtain ⟨x, hx⟩ := hc σ hA hσ
    refine ⟨σ, hA, hσ, x, hx, ?_⟩
    obtain ⟨-, rfl⟩ := denotes_constant.mp hx
    rfl

theorem resolveConstant_chosen {c : APInt} (hcs : PathCondition A cs)
    (hc : Valued A cs (.constant c) w) (hl : Layout ctx as.objects) :
    Chosen (MayPoint A cs (.constant c) w) as.objects (as.resolveConstant c.toNat) where
  found op hop := by
    obtain ⟨hmem, hcov⟩ := resolveConstant_some hop
    exact ⟨hmem, _, (points_constant hcs hc).mpr rfl, hcov⟩
  none hnone op hop := by
    rintro ⟨a, hpt, hcov⟩
    obtain rfl := (points_constant hcs hc).mp hpt
    rw [resolveConstant_eq hl hop hcov] at hnone
    cases hnone

/-- A search of all objects leaves out none, because two objects that cover
one address are the same. -/
theorem Found.exact (hl : Layout ctx as.objects)
    (hsr : Found A cs address ctx.pointerWidth as.objects [] rl) : rl.Nodup ∧ ∀ op, op ∈ rl ↔
      op ∈ as.objects ∧ MayPoint A cs address ctx.pointerWidth op := by
  obtain ⟨new, rfl, hsub, hmay⟩ := hsr.added
  have hnodup : as.objects.Nodup := hl.ordered.imp fun hlt heq =>
    absurd (heq ▸ hlt) (Nat.lt_irrefl _)
  refine ⟨?_, fun op => ⟨fun hop => ?_, fun hop => ?_⟩⟩
  · obtain ⟨l, hperm, hsub⟩ := hsub
    exact hperm.nodup_iff.mp (hnodup.sublist hsub)
  · exact ⟨hsub.subset hop, hmay op hop⟩
  · rcases hsr.finds op hop.1 hop.2 with hm | ⟨op', hop', hmust⟩
    · exact hm
    · obtain ⟨a, hpt, hcov⟩ := hop.2
      rw [hl.unique hop.1 (hsub.subset hop') hcov (hmust a hpt)]
      exact hop'

/-- The search of `resolveOne` from an example address. -/
def searchOne (as : AddressSpace) (ctx : Context) (t : TimingSolver S) (cs : List Expr)
    (address : Expr) (a : Nat) : SolverM S (Option (Option ObjectPair)) := do
  match ← resolveOneBackward ctx t cs address (as.splitAt a).1.reverse with
  | none => return none
  | some (some op) => return some (some op)
  | some none => resolveOneForward ctx t cs address (as.splitAt a).2

section

variable (h : t.solver.Correct A False Inv) (hcs : PathCondition A cs)
  (ha : Valued A cs address ctx.pointerWidth) (hw : 32 ≤ ctx.pointerWidth)
  (hl : Layout ctx as.objects)

include h hcs ha

/-- The example address is one that the pointer may have. -/
theorem getValue_points (hs : Inv s) : Runs (t.getValue cs address) s fun r s' => Inv s' ∧
      ∃ cex : APInt, r = some cex ∧ Points A cs address ctx.pointerWidth cex.toNat := by
  refine (t.getValue_runs h hcs ha hs).imp ?_
  rintro (_ | cex) s' ⟨hs', hr⟩
  · exact hr.elim
  · obtain ⟨σ, hA, hσ, hv⟩ := hr
    obtain ⟨x, hx⟩ := ha σ hA hσ
    obtain rfl := Option.some.inj (hx.eval_eq.symm.trans hv)
    exact ⟨hs', _, rfl, σ, hA, hσ, x, hx, rfl⟩

include hw hl

theorem searchOne_runs (a : Nat) (hs : Inv s) :
    Runs (as.searchOne ctx t cs address a) s fun r s' => Inv s' ∧ ∃ o, r = some o ∧
        Chosen (MayPoint A cs address ctx.pointerWidth) as.objects o := by
  have hfits := hl.fits
  have hsep := hl.separated
  unfold searchOne
  rw [← splitAt_append as a] at hfits hsep ⊢
  obtain ⟨hpre, hpost, -⟩ := List.pairwise_append.mp hsep
  refine .bind (resolveOneBackward_runs h hcs ha hw
    (fun op hop => hfits op (by simp [List.mem_reverse.mp hop]))
    (List.pairwise_reverse.mpr hpre) hs) ?_
  rintro _ s1 ⟨hs1, o, rfl, ho⟩
  cases o with
  | some op =>
    obtain ⟨hop, hmay⟩ := ho.found op rfl
    exact .pure ⟨hs1, _, rfl, .some (by simp [List.mem_reverse.mp hop]) hmay⟩
  | none =>
    refine (resolveOneForward_runs h hcs ha hw
      (fun op hop => hfits op (by simp [hop])) hpost hs1).imp ?_
    rintro _ s2 ⟨hs2, o, rfl, ho'⟩
    exact ⟨hs2, o, rfl, .append (fun op hop => ho.none rfl op (List.mem_reverse.mpr hop)) ho'⟩

/-- One object that the address may point into, if there is any. -/
theorem resolveOne_runs (hs : Inv s) : Runs (as.resolveOne ctx t cs address) s fun r s' => Inv s' ∧
      ∃ o, r = some o ∧ Chosen (MayPoint A cs address ctx.pointerWidth) as.objects o := by
  unfold resolveOne
  split
  · next c => exact .pure ⟨hs, _, rfl, resolveConstant_chosen hcs ha hl⟩
  · refine .bind (getValue_points h hcs ha hs) ?_
    rintro _ s1 ⟨hs1, cex, rfl, hcex⟩
    simp only
    split
    · next mo os hprev =>
      have hle := lookupPrevious_le hprev
      split
      · next hin =>
        refine .pure ⟨hs1, _, rfl, .some (lookupPrevious_mem hprev) ⟨_, hcex, hle, ?_⟩⟩
        simp only at hle ⊢
        omega
      · exact searchOne_runs h hcs ha hw hl _ hs1
    · exact searchOne_runs h hcs ha hw hl _ hs1

/-- `resolve` gives the objects that the address may point into. -/
theorem resolve_runs (hs : Inv s) :
    Runs (as.resolve ctx t cs address 0) s fun r s' => Inv s' ∧ r.1 = false ∧
      r.2.Nodup ∧ ∀ op, op ∈ r.2 ↔ op ∈ as.objects ∧ MayPoint A cs address ctx.pointerWidth op := by
  unfold resolve
  split
  · next c =>
    have hc := resolveConstant_chosen hcs ha hl
    refine .pure ⟨hs, rfl, ?_, fun op => ?_⟩
    · cases as.resolveConstant c.toNat <;> simp
    · rw [Option.mem_toList]
      constructor
      · exact hc.found op
      · rintro ⟨hop, a, hpt, hcov⟩
        obtain rfl := (points_constant hcs ha).mp hpt
        exact resolveConstant_eq hl hop hcov
  · refine .bind (getValue_points h hcs ha hs) ?_
    rintro _ s1 ⟨hs1, cex, rfl, -⟩
    have happ := splitAt_append as cex.toNat
    have hfits := hl.fits
    have hsep := hl.separated
    rw [← happ] at hfits hsep
    obtain ⟨hpre, hpost, -⟩ := List.pairwise_append.mp hsep
    refine .bind (resolveBackward_runs h hcs ha hw (fun op hop => hfits op (List.mem_append.mpr
        (.inl (List.mem_reverse.mp hop))))
      (List.pairwise_reverse.mpr hpre) hs1) ?_
    rintro ⟨r, rl⟩ s2 ⟨hs2, hr, hback, hmust⟩
    replace hback := hback.perm (List.reverse_perm _)
    cases r with
    | incomplete => exact absurd rfl hr
    | complete =>
      refine .pure ⟨hs2, rfl, Found.exact hl ?_⟩
      rw [← happ]
      exact hback.append (.stop fun _ _ _ => hmust rfl)
    | unresolved =>
      refine .bind (resolveForward_runs h hcs ha hw
        (fun op hop => hfits op (List.mem_append.mpr (.inr hop)))
        hpost hs2) ?_
      rintro ⟨r, rl'⟩ s3 ⟨hs3, hr, hforw⟩
      refine .pure ⟨hs3, decide_eq_false hr, Found.exact hl ?_⟩
      rw [← happ]
      exact hback.append hforw

end

end

/-- Over a correct solver that always answers, `resolve` without a limit is
complete and gives exactly the objects that the pointer may be in bounds of,
each once. `resolveOne` gives one of them, and none only when there is none. -/
theorem resolves_exactly {S : Type} (ctx : Context) (t : TimingSolver S)
    (A : Valuation → Prop) (Inv : S → Prop) (as : AddressSpace)
    (constraints : List Expr) (address : Expr) (s : S)
    (hsolver : t.solver.Correct A False Inv) (hs : Inv s)
    (hcs : PathCondition A constraints)
    (haddress : Valued A constraints address ctx.pointerWidth)
    (hw : 32 ≤ ctx.pointerWidth) (hl : Layout ctx as.objects) :
    Runs (as.resolve ctx t constraints address 0) s (fun r s' => Inv s' ∧
      r.1 = false ∧ r.2.Nodup ∧ ∀ op, op ∈ r.2 ↔ op ∈ as.objects ∧
        MayPoint A constraints address ctx.pointerWidth op) ∧
    Runs (as.resolveOne ctx t constraints address) s (fun r s' => Inv s' ∧
      ∃ o, r = some o ∧
        (o = none ↔ ∀ op ∈ as.objects,
          ¬MayPoint A constraints address ctx.pointerWidth op) ∧
        ∀ op, o = some op → op ∈ as.objects ∧
          MayPoint A constraints address ctx.pointerWidth op) := by
  refine ⟨resolve_runs hsolver hcs haddress hw hl hs,
    (resolveOne_runs hsolver hcs haddress hw hl hs).imp ?_⟩
  rintro r s' ⟨hs', o, hr, ho⟩
  refine ⟨hs', o, hr, ⟨ho.none, fun hno => ?_⟩, ho.found⟩
  cases o with
  | none => rfl
  | some op =>
    obtain ⟨hop, hmay⟩ := ho.found op rfl
    exact absurd hmay (hno op hop)

/-- Objects of four bytes, of none and of eight, to show the results at. -/
def three : AddressSpace where
  cowKey := 1
  objects := [(⟨0, 4096, 4, page_lt_address, Array.four.size_lt⟩, 0),
    (⟨1, 4200, 0, by decide, empty_lt_size⟩, 1),
    (⟨2, 4300, 8, by decide, by decide⟩, 2)]

theorem layout_three : Layout ⟨64, true⟩ three.objects where
  ordered := by decide
  disjoint := by
    simp only [three, List.pairwise_cons, List.mem_cons, List.not_mem_nil,
      or_false, forall_eq_or_imp, forall_eq, List.Pairwise.nil, and_true,
      MemoryObject.Disjoint, MemoryObject.Covers]
    refine ⟨⟨fun a h => ?_, fun a h => ?_⟩, fun a h => ?_, by simp⟩ <;> omega
  fits := by
    simp only [three, List.mem_cons, List.not_mem_nil, or_false,
      forall_eq_or_imp, forall_eq, MemoryObject.Fits]
    decide

/-- The address 4096 plus a symbolic byte. -/
def farPointer : Expr :=
  .binary .add (Expr.const 4096 64)
    (.zext (.read Array.four .null (Expr.const 0 32)) 64)

theorem denotes_farPointer (σ : Valuation) :
    Denotes σ farPointer (4096#64 + (σ Array.four 0).setWidth 64) :=
  denotes_binary.mpr ⟨_, _, denotes_const.mpr ⟨by decide, rfl⟩,
    denotes_zext.mpr ⟨8, _, by decide, denotes_read_four σ (by decide), rfl⟩, rfl⟩

theorem valued_farPointer : Valued (fun _ => True) [.descending] farPointer 64 :=
  fun σ _ _ => ⟨_, denotes_farPointer σ⟩

/-- The pointer `4096 + arr[0]`, under `arr[1] < arr[0]`. -/
theorem resolves_exactly_three :
    let t : TimingSolver Unit := ⟨SolverImpl.ideal fun _ => True, true, true⟩
    let May := MayPoint (fun _ => True) [.descending] farPointer 64
    Runs (three.resolve ⟨64, true⟩ t [.descending] farPointer 0) () (fun r _ =>
      True ∧ r.1 = false ∧ r.2.Nodup ∧
        ∀ op, op ∈ r.2 ↔ op ∈ three.objects ∧ May op) ∧
    Runs (three.resolveOne ⟨64, true⟩ t [.descending] farPointer) () (fun r _ =>
      True ∧ ∃ o, r = some o ∧ (o = none ↔ ∀ op ∈ three.objects, ¬May op) ∧
        ∀ op, o = some op → op ∈ three.objects ∧ May op) := by
  intro t May
  exact resolves_exactly ⟨64, true⟩ t _ (fun _ => True) three _ farPointer ()
    (SolverImpl.ideal_correct _) trivial pathCondition_descending valued_farPointer
    (by decide) layout_three

end AddressSpace

end VitalSE
