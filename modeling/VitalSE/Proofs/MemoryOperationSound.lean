import VitalSE.Proofs.AccessSound
import VitalSE.Proofs.ForkSound
import VitalSE.Proofs.ResolveSound

/-!
# Memory operations split the models of a state

A memory operation at a symbolic address may mean several objects, and none.
The executor forks a state for each object that the whole access may be in, and
the models that are left over end in an error. Together the states have each
model of the path condition once.

`Memory` is what the program has at its addresses. Object states are shared
between the states that come of a fork, and two things keep these apart: a
state writes in place only what it owns, and no object that was there before a
fork is owned after it. What reading changes in an object state, its caches, is
not seen by any of the states.
-/

namespace VitalSE

variable {S : Type} {σ : Valuation} {A P : Valuation → Prop} {w w' w'' w1 : World S}
  {as as' : AddressSpace} {ctx : Context} {t b u s : ExecutionState} {op p q : ObjectPair}
  {address address' value : Expr} {access access' : MemoryAccess} {n : Nat}
  {ex : Executor S} {cs : List Expr} {f : Nat → BitVec 8} {mo : MemoryObject}
  {Inv : S → Prop}

/-! ## Memory -/

/-- Under `σ` the objects have the bytes `m`, given by address. -/
def World.Memory (w : World S) (σ : Valuation) (objects : List ObjectPair)
    (m : Nat → BitVec 8) : Prop :=
  ∀ op ∈ objects, (w.heap op.2).view.Denotes σ fun i => m (op.1.address + i)

/-- The object states of an address space: each is one of its object only, has
its size, and is not newer than the key of the address space. -/
structure World.Owns (w : World S) (as : AddressSpace) : Prop where
  size : ∀ op ∈ as.objects, (w.heap op.2).size = op.1.size
  wf : ∀ op ∈ as.objects, (w.heap op.2).view.WF
  allocated : ∀ op ∈ as.objects, op.2 < w.nextObject
  owner : ∀ op ∈ as.objects, (w.heap op.2).copyOnWriteOwner ≤ as.cowKey
  distinct : as.objects.Pairwise fun p q => p.2 ≠ q.2

theorem World.Owns.unique (h : w.Owns as) (hp : p ∈ as.objects)
    (hq : q ∈ as.objects) (he : p.2 = q.2) : p = q :=
  List.inj_on_of_nodup_map (List.pairwise_map.mpr h.distinct) hp hq he

/-- Object states are owned on, once all bytes are kept. -/
theorem World.Owns.mono (h : w.Owns as) (hobj : as'.objects = as.objects)
    (hkey : as.cowKey ≤ as'.cowKey)
    (hkeep : ∀ p ∈ as.objects, (w.heap p.2).view.Keeps (w'.heap p.2).view)
    (hnext : w.nextObject ≤ w'.nextObject) : w'.Owns as' := by
  refine ⟨fun p hp => ?_, fun p hp => ?_, fun p hp => ?_, fun p hp => ?_, ?_⟩ <;>
    rw [hobj] at *
  · exact (hkeep p hp).same.size.trans (h.size p hp)
  · exact (hkeep p hp).wf
  · exact (h.allocated p hp).trans_le hnext
  · exact ((hkeep p hp).same.owner.trans_le (h.owner p hp)).trans hkey
  · exact h.distinct

/-- What a state with the address space `as` leaves as it is: the bytes of all
object states that it does not own. -/
structure World.Frame (as : AddressSpace) (w w' : World S) : Prop where
  nextObject : w.nextObject ≤ w'.nextObject
  keeps : ∀ ref < w.nextObject, (w.heap ref).view.WF →
    ((∀ op ∈ as.objects, op.2 ≠ ref) ∨
      (w.heap ref).copyOnWriteOwner < as.cowKey) →
    (w.heap ref).view.Keeps (w'.heap ref).view
  replayPath : w'.replayPath = w.replayPath
  simulation : w'.is_simulation_mode = w.is_simulation_mode
  terminated : w'.terminated = w.terminated

theorem View.Denotes.congr {v : View} {g : Nat → BitVec 8} (h : v.Denotes σ f)
    (hfg : ∀ i < v.size, f i = g i) : v.Denotes σ g where
  updates := by
    obtain ⟨us, hus, hlook⟩ := h.updates
    exact ⟨us, hus, fun i hi hu => hfg i hi ▸ hlook i hi hu⟩
  concrete i hi hc := hfg i hi ▸ h.concrete i hi hc
  known i hi e he := hfg i hi ▸ h.known i hi e he

/-! ## Values at addresses -/

section

variable {m : Nat → BitVec 8} {base off size : Nat} {y : BitVec n}

theorem Loads.shift (h : Loads ctx (fun i => m (base + i)) off y) : Loads ctx m (base + off) y := by
  unfold Loads at h ⊢
  split
  · next h1 => rwa [if_pos h1] at h
  · next h1 =>
    rw [if_neg h1] at h
    intro i hi
    rw [h i hi, Nat.add_assoc]

/-- The memory in which an object has other bytes. -/
def putObject (m : Nat → BitVec 8) (mo : MemoryObject) (f : Nat → BitVec 8)
    (a : Nat) : BitVec 8 :=
  if mo.address ≤ a ∧ a < mo.address + mo.size then f (a - mo.address) else m a

theorem putObject_inside {i : Nat} (hi : i < mo.size) :
    putObject m mo f (mo.address + i) = f i := by
  rw [putObject, if_pos (by omega), Nat.add_sub_cancel_left]

theorem Stores.shift (hn : Storable n) (h : Stores ctx (fun i => m (mo.address + i)) off y f)
    (hle : off + getMinBytesForWidth n ≤ mo.size) :
    Stores ctx m (mo.address + off) y (putObject m mo f) := by
  unfold Stores at h ⊢
  split
  · next h1 =>
    rw [if_pos h1] at h
    subst h1
    have hlt : off < mo.size := hle
    funext a
    by_cases hin : mo.address ≤ a ∧ a < mo.address + mo.size
    · rw [putObject, if_pos hin, h]
      by_cases ha : a = mo.address + off
      · rw [ha, Function.update_self, Nat.add_sub_cancel_left, Function.update_self]
      · rw [Function.update_of_ne ha, Function.update_of_ne (by omega),
          Nat.add_sub_cancel' hin.1]
    · rw [putObject, if_neg hin, Function.update_of_ne (by omega)]
  · next h1 =>
    rw [if_neg h1] at h
    rw [(hn.bytes h1).2.2] at hle
    refine ⟨fun i hi => ?_, fun a ha => ?_⟩
    · have hlt := byteIndex_lt ctx hi
      rw [Nat.add_assoc, putObject_inside (by omega), h.1 i hi]
    · by_cases hin : mo.address ≤ a ∧ a < mo.address + mo.size
      · rw [putObject, if_pos hin, h.2 _ (by omega)]
        show m (mo.address + (a - mo.address)) = m a
        rw [Nat.add_sub_cancel' hin.1]
      · rw [putObject, if_neg hin]

end

/-! ## Copy on write -/

namespace AddressSpace

variable {objects objects' : List ObjectPair} {ref : Nat}

/-- The objects, with another object state for one of them. -/
def redirect (op : ObjectPair) (ref : Nat) (p : ObjectPair) : ObjectPair :=
  if p.1.address = op.1.address then (op.1, ref) else p

theorem eq_of_address (hord : objects.Pairwise fun p q => p.1.address < q.1.address)
    (hp : p ∈ objects) (hq : q ∈ objects) (he : p.1.address = q.1.address) : p = q :=
  List.inj_on_of_nodup_map (List.pairwise_map.mpr (hord.imp fun h => Nat.ne_of_lt h)) hp hq he

theorem redirect_self (ref : Nat) (hord : objects.Pairwise fun p q =>
    p.1.address < q.1.address) (hop : op ∈ objects) (hp : p ∈ objects) :
    p = op ∧ redirect op ref p = (op.1, ref) ∨
      p.1.address ≠ op.1.address ∧ redirect op ref p = p := by
  by_cases he : p.1.address = op.1.address
  · exact .inl ⟨eq_of_address hord hp hop he, if_pos he⟩
  · exact .inr ⟨he, if_neg he⟩

section

variable (hord : objects.Pairwise fun p q => p.1.address < q.1.address) (hop : op ∈ objects)

include hord hop

theorem replaceObject_eq : replaceObject (op.1, ref) objects = objects.map (redirect op ref) := by
  induction objects with
  | nil => simp at hop
  | cons p rest ih =>
    obtain ⟨hhead, hrest⟩ := List.pairwise_cons.mp hord
    rw [replaceObject, List.map_cons, redirect]
    rcases List.mem_cons.mp hop with rfl | hop
    · rw [if_neg (by simp), if_pos rfl, if_pos rfl]
      congr 1
      have hid : rest.map (redirect op ref) = rest.map id := by
        refine List.map_congr_left fun q hq => if_neg ?_
        have := hhead q hq
        omega
      rw [hid, List.map_id]
    · have := hhead op hop
      rw [if_neg (by simp only; omega), if_neg (by simp only; omega),
        if_neg (by omega), ih hrest hop]

theorem redirect_objects : (objects.map (redirect op ref)).map Prod.fst = objects.map Prod.fst := by
  rw [List.map_map]
  refine List.map_congr_left fun p hp => ?_
  rcases redirect_self ref hord hop hp with ⟨rfl, h⟩ | ⟨-, h⟩
  · rw [Function.comp, h]
  · rw [Function.comp, h]

end

end AddressSpace

/-! ## The access -/

namespace Executor

theorem accessBytes_pos (h : Storable (accessWidth access)) : 0 < accessBytes access := by
  unfold accessBytes getMinBytesForWidth
  unfold Storable at h
  omega

/-- The object state that `t` may write to, which is a copy when it is new. -/
structure Redirected (w : World S) (s : ExecutionState) (op : ObjectPair)
    (w' : World S) (t : ExecutionState) (ref : Nat) : Prop where
  state : t = { s with addressSpace := { s.addressSpace with
    objects := s.addressSpace.objects.map (AddressSpace.redirect op ref) } }
  view : (w'.heap ref).view =
    { (w.heap op.2).view with owner := s.addressSpace.cowKey }
  same : ∀ r < w.nextObject, w'.heap r = w.heap r
  allocated : ref < w'.nextObject
  nextObject : w.nextObject ≤ w'.nextObject
  owned : ref = op.2 ∧
    (w.heap ref).copyOnWriteOwner = s.addressSpace.cowKey ∨ ref = w.nextObject
  rest : w' = { w with heap := w'.heap, nextObject := w'.nextObject }

theorem getWriteable_runs (hl : s.addressSpace.objects.Pairwise fun p q =>
      p.1.address < q.1.address) (howns : w.Owns s.addressSpace) (hop : op ∈ s.addressSpace.objects)
    (hro : (w.heap op.2).readOnly = false) : Runs (getWriteable s op.1 op.2) w fun r w' =>
      Redirected w s op w' r.1 r.2 := by
  have hlt := howns.allocated op hop
  by_cases hown : s.addressSpace.cowKey = (w.heap op.2).copyOnWriteOwner
  · have hsame : s.addressSpace.getWriteable op.1 op.2 ⟨w.heap, w.nextObject⟩ =
        .ok ((s.addressSpace, op.2), ⟨w.heap, w.nextObject⟩) := by
      show (if (w.heap op.2).readOnly then _ else _ : HeapM _) _ = _
      rw [if_neg (by simp [hro]), if_pos hown]
      rfl
    refine .get_bind (.except_bind hsame (.set_bind ?_))
    have hid : s.addressSpace.objects.map (AddressSpace.redirect op op.2) =
        s.addressSpace.objects := by
      refine (List.map_congr_left fun p hp => ?_).trans (List.map_id _)
      rcases AddressSpace.redirect_self op.2 hl hop hp with ⟨rfl, h⟩ | ⟨-, h⟩
      · exact h
      · exact h
    refine .pure ⟨by rw [hid], ?_, fun _ _ => rfl, hlt, le_rfl,
      .inl ⟨rfl, hown.symm⟩, rfl⟩
    rw [hown]
    rfl
  · have hcopy : s.addressSpace.getWriteable op.1 op.2 ⟨w.heap, w.nextObject⟩ =
        .ok (({ s.addressSpace with objects :=
            AddressSpace.replaceObject (op.1, w.nextObject) s.addressSpace.objects },
            w.nextObject),
          ObjectHeap.alloc ⟨w.heap, w.nextObject⟩ { w.heap op.2 with
            copyOnWriteOwner := s.addressSpace.cowKey, readOnly := false }) := by
      show (if (w.heap op.2).readOnly then _ else _ : HeapM _) _ = _
      rw [if_neg (by simp [hro]), if_neg hown, ObjectState.copy, if_neg (by simp [hro])]
      rfl
    refine .get_bind (.except_bind hcopy (.set_bind (.pure
      ⟨?_, ?_, fun r hr => ?_, ?_, ?_, .inr rfl, rfl⟩)))
    · simp only [AddressSpace.replaceObject_eq hl hop]
    · simp only [ObjectHeap.alloc, Function.update_self]
      exact View.ext rfl rfl rfl rfl rfl rfl rfl hro.symm rfl
    · exact Function.update_of_ne hr.ne _ _
    · exact Nat.lt_succ_self _
    · exact Nat.le_succ _

/-- What an access at the address `a` does, in the memory `m`: a read binds the
value that stands there, and a write puts its value there. The other bytes and
registers stay. -/
def Effect (ctx : Context) (access : MemoryAccess) (σ : Valuation)
    (m : Nat → BitVec 8) (a : Nat) (s : ExecutionState) (w' : World S)
    (t : ExecutionState) : Prop :=
  match access with
  | .read target => w'.Memory σ t.addressSpace.objects m ∧
      ∃ (r : Expr) (y : BitVec target.width),
        t.stack = (bindLocal target s r).stack ∧ Denotes σ r y ∧ Loads ctx m a y
  | .write value => t.stack = s.stack ∧ ∀ (n : Nat) (y : BitVec n),
      Denotes σ value y → ∃ m', w'.Memory σ t.addressSpace.objects m' ∧
        Stores ctx m a y m'

/-- All models put `n` bytes at the address in one object. -/
def Within (A : Valuation → Prop) (cs : List Expr) (address : Expr)
    (ctx : Context) (mo : MemoryObject) (n : Nat) : Prop :=
  ∀ σ, A σ → AllHold σ cs → ∃ x : BitVec ctx.pointerWidth,
    Denotes σ address x ∧ mo.Contains n x.toNat

/-- `t` in `w'` is `s` in `w` after the access, whose bytes are all in `op`. -/
structure Accessed (A : Valuation → Prop) (ctx : Context) (address : Expr)
    (access : MemoryAccess) (w : World S) (s : ExecutionState) (op : ObjectPair)
    (w' : World S) (t : ExecutionState) : Prop where
  objects : t.addressSpace.objects.map Prod.fst =
    s.addressSpace.objects.map Prod.fst
  owns : w'.Owns t.addressSpace
  effect : ∀ σ, A σ → AllHold σ t.constraints →
    ∃ x : BitVec ctx.pointerWidth, Denotes σ address x ∧
      op.1.Contains (accessBytes access) x.toNat ∧
      ∀ m, w.Memory σ s.addressSpace.objects m →
        Effect ctx access σ m x.toNat s w' t

/-- `t` is the state `b` after the access. The memory is seen from `s`, which
`b` is a side of. -/
structure Performed (A : Valuation → Prop) (ctx : Context) (address : Expr)
    (access : MemoryAccess) (w : World S) (s : ExecutionState) (op : ObjectPair)
    (w1 : World S) (b : ExecutionState) (w' : World S) (t : ExecutionState) :
    Prop where
  solver : w'.solver = w1.solver
  frame : w1.Frame b.addressSpace w'
  constraints : t.constraints = b.constraints
  fresh : ∀ p ∈ t.addressSpace.objects,
    p ∈ s.addressSpace.objects ∨ w.nextObject ≤ p.2
  accessed : Accessed A ctx address access w s op w' t

/-- The offset of an address in an object that contains it. -/
theorem offsetAt {x : BitVec ctx.pointerWidth} (opt : Bool) (hfits : mo.Fits ctx)
    (hx : Denotes σ address x) (hin : mo.Contains n x.toNat) :
    ObjectState.OffsetAt (mo.getOffsetExpr opt ctx address) ctx.pointerWidth σ
      (x.toNat - mo.address) := by
  refine ⟨_, MemoryObject.denotes_getOffsetExpr opt mo hx, ?_⟩
  have hlt := hfits.address_lt
  have := x.isLt
  have := hin.1
  rw [BitVec.toNat_sub, BitVec.toNat_ofNat, Nat.mod_eq_of_lt hlt,
    show 2 ^ ctx.pointerWidth - mo.address + x.toNat =
      x.toNat - mo.address + 2 ^ ctx.pointerWidth by omega,
    Nat.add_mod_right, Nat.mod_eq_of_lt (by omega)]

theorem typed_getOffsetExpr (mo : MemoryObject) (opt : Bool) (ht : Typed address ctx.pointerWidth) :
    Typed (mo.getOffsetExpr opt ctx address) ctx.pointerWidth :=
  (SubExpr.create_simplifies (σ := fun _ _ => 0)).typed
    (typed_binary.mpr ⟨ht, typed_const.mpr ⟨ht.pos, rfl⟩⟩)

section

variable (hl : AddressSpace.Layout ex.ctx s.addressSpace.objects)
  (howns : w.Owns s.addressSpace) (hop : op ∈ s.addressSpace.objects) {ref : Nat}

include howns hop

/-- The other objects do not get the object state that is written. -/
theorem redirected_ne (hred : Redirected w s op w1 t ref)
    (hq : q ∈ s.addressSpace.objects) (hne : q.1.address ≠ op.1.address) : q.2 ≠ ref := by
  have hlt := howns.allocated q hq
  rcases hred.owned with ⟨hown, -⟩ | hown
  · intro he
    exact hne (congrArg (·.1.address) (howns.unique hq hop (he.trans hown)))
  · omega

include hl

/-- The object states of `t`: the written one, and those of `s` for the other
objects. -/
theorem redirected_cases (hred : Redirected w s op w1 t ref) (hp : p ∈ t.addressSpace.objects) :
    p = (op.1, ref) ∨ p ∈ s.addressSpace.objects ∧
      p.1.address ≠ op.1.address ∧ p.2 ≠ ref ∧ w1.heap p.2 = w.heap p.2 := by
  rw [hred.state] at hp
  obtain ⟨q, hq, rfl⟩ := List.mem_map.mp hp
  rcases AddressSpace.redirect_self ref hl.ordered hop hq with ⟨-, h⟩ | ⟨hne, h⟩
  · exact .inl h
  · rw [h]
    exact .inr ⟨hq, hne, redirected_ne howns hop hred hq hne, hred.same _ (howns.allocated q hq)⟩

variable (ht : Typed address ex.ctx.pointerWidth) (hr : address.Reduced)

include ht hr

theorem readObject_runs {width : Nat} (hs : PathCondition A s.constraints)
    (hwidth : Storable width) (hcount : (w.heap op.2).view.Counted (w.heap op.2).view.pending)
    (hin : Within A s.constraints address ex.ctx op.1 (getMinBytesForWidth width)) :
    Runs (ex.readObject op.2 (op.1.getOffsetExpr ex.solver.constArrayOpt ex.ctx
        address) width) w fun r w' =>
      w' = { w with heap := w'.heap, constArrays := w'.constArrays } ∧
      (∀ ref ≠ op.2, w'.heap ref = w.heap ref) ∧
      (w.heap op.2).view.Keeps (w'.heap op.2).view ∧
      ∀ σ (x : BitVec ex.ctx.pointerWidth) m, Denotes σ address x →
        op.1.Contains (getMinBytesForWidth width) x.toNat →
        w.Memory σ s.addressSpace.objects m →
        ∃ y : BitVec width, Denotes σ r y ∧ Loads ex.ctx m x.toNat y := by
  have hsize := howns.size op hop
  have hfits := hl.fits op hop
  have hat {σ} {x : BitVec ex.ctx.pointerWidth} (hx : Denotes σ address x)
      (hc : op.1.Contains (getMinBytesForWidth width) x.toNat) :=
    offsetAt ex.solver.constArrayOpt hfits hx hc
  obtain ⟨σ0, hA0, hσ0⟩ := hs.satisfiable
  obtain ⟨x0, hx0, hc0⟩ := hin σ0 hA0 hσ0
  obtain ⟨r, ⟨obj, arrays⟩, hrun, hkeeps, -, hloads⟩ :=
    ObjectState.read_runs ex.solver.constArrayOpt ex.ctx
      (howns.wf op hop) (.of_counted hcount) hwidth
      (typed_getOffsetExpr op.1 ex.solver.constArrayOpt ht)
      (SubExpr.create_reduced hr (by trivial))
      ⟨σ0, _, hat hx0 hc0, by have := hc0.2; have := hc0.1; omega⟩ w.constArrays
  refine .get_bind (.except_bind hrun (.set_bind (.pure ⟨rfl, ?_, ?_, ?_⟩)))
  · intro ref hne
    exact Function.update_of_ne hne _ _
  · simpa using hkeeps
  · intro σ x m hx hc hm
    have := hc.1
    have := hc.2
    obtain ⟨y, hy, hload⟩ := hloads (hm op hop) (hat hx hc) (by omega)
    refine ⟨y, hy, ?_⟩
    have := hload.shift
    rwa [Nat.add_sub_cancel' hc.1] at this

/-- A write: `t` is `s` with the object state `ref` for `op`. -/
theorem writeObject_runs {width : Nat} (hred : Redirected w s op w1 t ref)
    (hwidth : Storable width) (hv : Typed value width) :
    Runs (ex.writeObject ref (op.1.getOffsetExpr ex.solver.constArrayOpt ex.ctx
        address) value) w1 fun _ w' =>
      w' = { w1 with heap := w'.heap } ∧
      (∀ r ≠ ref, w'.heap r = w1.heap r) ∧
      (w1.heap ref).view.Same (w'.heap ref).view ∧ (w'.heap ref).view.WF ∧
      ∀ σ (x : BitVec ex.ctx.pointerWidth) m (y : BitVec width),
        Denotes σ address x →
        op.1.Contains (getMinBytesForWidth width) x.toNat →
        w.Memory σ s.addressSpace.objects m → Denotes σ value y →
        ∃ f, (w'.heap ref).view.Denotes σ f ∧
          Stores ex.ctx m x.toNat y (putObject m op.1 f) := by
  have hsize : (w1.heap ref).size = op.1.size :=
    (congrArg View.size hred.view).trans (howns.size op hop)
  have hfits := hl.fits op hop
  have hwf : (w1.heap ref).view.WF := by
    have h := howns.wf op hop
    rw [hred.view]
    exact ⟨h.head, h.known, h.cached, h.exclusive⟩
  obtain ⟨obj, hrun, hwrites⟩ :=
    ObjectState.write_writes hwf hwidth ex.solver.constArrayOpt ex.ctx
      (typed_getOffsetExpr op.1 ex.solver.constArrayOpt ht)
      (SubExpr.create_reduced hr (by trivial)) hv
  refine .get_bind (.except_bind hrun (.put ⟨rfl, ?_, ?_, ?_, ?_⟩))
  · intro r hne
    exact Function.update_of_ne hne _ _
  · simpa using hwrites.same
  · simpa using hwrites.wf
  · intro σ x m y hx hc hm hy
    have hlo := hc.1
    have hhi := hc.2
    have hd : (w1.heap ref).view.Denotes σ fun i => m (op.1.address + i) := by
      have h := hm op hop
      rw [hred.view]
      exact ⟨h.updates, h.concrete, h.known⟩
    obtain ⟨f, hf, hstore⟩ := hwrites.stores hd
      (offsetAt ex.solver.constArrayOpt hfits hx hc) (by omega) hy
    refine ⟨f, by simpa using hf, ?_⟩
    have := hstore.shift hwidth (by omega)
    rwa [Nat.add_sub_cancel' hlo] at this

theorem accessWrite_runs (hwidth : Storable value.getWidth)
    (hv : Typed value value.getWidth) (hro : (w.heap op.2).readOnly = false)
    (hin : Within A s.constraints address ex.ctx op.1 (getMinBytesForWidth value.getWidth)) :
    Runs (ex.accessObject s op (op.1.getOffsetExpr ex.solver.constArrayOpt
        ex.ctx address) (.write value)) w fun r w' => ∃ t, r = some t ∧
      Performed A ex.ctx address (.write value) w s op w s w' t := by
  unfold accessObject
  refine .get_bind ?_
  simp only [hro, Bool.false_eq_true, if_false]
  refine .bind (getWriteable_runs hl.ordered howns hop hro) ?_
  rintro ⟨t, ref⟩ w1 (hred : Redirected w s op w1 t ref)
  refine .bind (writeObject_runs hl howns hop ht hr hred hwidth hv) ?_
  rintro _ w' ⟨hw', hother, hsame, hwf', hstores⟩
  have hcases {p} (hp : p ∈ t.addressSpace.objects) :=
    redirected_cases hl howns hop hred hp
  have hnext : w'.nextObject = w1.nextObject := by rw [hw']
  have hkey : t.addressSpace.cowKey = s.addressSpace.cowKey := by rw [hred.state]
  have howned (p : ObjectPair) (hp : p ∈ t.addressSpace.objects) :
      (w'.heap p.2).size = p.1.size ∧ (w'.heap p.2).view.WF ∧ p.2 < w'.nextObject ∧
        (w'.heap p.2).copyOnWriteOwner ≤ t.addressSpace.cowKey := by
    rw [hnext, hkey]
    rcases hcases hp with rfl | ⟨hq, -, hne, hheap⟩
    · exact ⟨hsame.size.trans ((congrArg View.size hred.view).trans (howns.size op hop)),
        hwf', hred.allocated, (hsame.owner.trans (congrArg View.owner hred.view)).le⟩
    · rw [hother _ hne, hheap]
      exact ⟨howns.size p hq, howns.wf p hq,
        (howns.allocated p hq).trans_le hred.nextObject, howns.owner p hq⟩
  refine .pure ⟨t, rfl, ?_, ⟨?_, ?_, ?_, ?_, ?_⟩, by rw [hred.state], ?_,
    ?_, ⟨fun p hp => (howned p hp).1, fun p hp => (howned p hp).2.1,
      fun p hp => (howned p hp).2.2.1, fun p hp => (howned p hp).2.2.2, ?_⟩, ?_⟩
  · rw [hw', hred.rest]
  · exact hnext ▸ hred.nextObject
  · -- What is written in place is owned, and what is copied to is new.
    intro r hr' hwf hfree
    have hne : r ≠ ref := by
      rcases hred.owned with ⟨hown, hkey⟩ | hown
      · rintro rfl
        rcases hfree with hfree | hfree
        · exact hfree op hop hown.symm
        · omega
      · omega
    rw [hother r hne, hred.same r hr']
    exact .refl hwf
  · rw [hw', hred.rest]
  · rw [hw', hred.rest]
  · rw [hw', hred.rest]
  · intro p hp
    rcases hcases hp with rfl | ⟨hq, -, -, -⟩
    · rcases hred.owned with ⟨rfl, -⟩ | rfl
      · exact .inl hop
      · exact .inr le_rfl
    · exact .inl hq
  · rw [hred.state]
    exact AddressSpace.redirect_objects hl.ordered hop
  · rw [hred.state]
    refine List.pairwise_map.mpr (howns.distinct.imp_of_mem ?_)
    intro p q hp hq hpq
    rcases AddressSpace.redirect_self ref hl.ordered hop hp with
      ⟨rfl, hp'⟩ | ⟨hp', hp''⟩ <;>
    rcases AddressSpace.redirect_self ref hl.ordered hop hq with
      ⟨rfl, hq'⟩ | ⟨hq', hq''⟩
    · exact absurd rfl hpq
    · rw [hp', hq'']
      exact (redirected_ne howns hop hred hq hq').symm
    · rw [hp'', hq']
      exact redirected_ne howns hop hred hp hp'
    · rw [hp'', hq'']
      exact hpq
  · intro σ hA hσ
    rw [hred.state] at hσ
    obtain ⟨x, hx, hc⟩ := hin σ hA hσ
    refine ⟨x, hx, hc, fun m hm => ⟨by rw [hred.state], fun n y hy => ?_⟩⟩
    obtain rfl := hy.typed.getWidth_eq
    obtain ⟨f, hf, hstore⟩ := hstores σ x m y hx hc hm hy
    refine ⟨_, fun p hp => ?_, hstore⟩
    rcases hcases hp with rfl | ⟨hq, hne', hne, hheap⟩
    · have hsize : (w'.heap ref).size = op.1.size := (howned _ hp).1
      exact hf.congr fun i hi => (putObject_inside (hsize ▸ hi)).symm
    · rw [hother _ hne, hheap]
      refine (hm p hq).congr fun i hi => (if_neg fun hin => ?_).symm
      have hi' : i < p.1.size := (howns.size p hq) ▸ hi
      refine hne' (congrArg (·.1.address) (hl.unique hq hop
        (a := p.1.address + i) ⟨by omega, by omega⟩ ⟨by omega, by omega⟩))

/-- The access to an object that contains it, under all models. -/
theorem accessObject_runs (hs : PathCondition A s.constraints)
    (hwidth : Storable (accessWidth access)) (hv : ∀ value, access = .write value →
      Typed value value.getWidth ∧ (w.heap op.2).readOnly = false)
    (hcount : ∀ target, access = .read target →
      (w.heap op.2).view.Counted (w.heap op.2).view.pending)
    (hin : Within A s.constraints address ex.ctx op.1 (accessBytes access)) :
    Runs (ex.accessObject s op (op.1.getOffsetExpr ex.solver.constArrayOpt
        ex.ctx address) access) w fun r w' => ∃ t, r = some t ∧
      Performed A ex.ctx address access w s op w s w' t := by
  unfold accessObject
  cases access with
  | read target =>
    refine .bind (readObject_runs hl howns hop ht hr hs hwidth (hcount target rfl) hin) ?_
    rintro r w' ⟨hw', hother, hkeeps, hloads⟩
    have hkeep : ∀ ref, (w.heap ref).view.WF →
        (w.heap ref).view.Keeps (w'.heap ref).view := by
      intro ref hwf
      by_cases href : ref = op.2
      · exact href ▸ hkeeps
      · rw [hother ref href]
        exact .refl hwf
    have hkeepObj : ∀ p ∈ s.addressSpace.objects,
        (w.heap p.2).view.Keeps (w'.heap p.2).view :=
      fun p hp => hkeep p.2 (howns.wf p hp)
    have hnext : w'.nextObject = w.nextObject := by rw [hw']
    refine .pure ⟨_, rfl, by rw [hw'], ⟨hnext.ge, fun ref _ hwf _ =>
      hkeep ref hwf, by rw [hw'], by rw [hw'], by rw [hw']⟩, rfl,
      fun p hp => .inl hp, rfl, howns.mono rfl le_rfl hkeepObj hnext.ge, fun σ hA hσ => ?_⟩
    obtain ⟨x, hx, hc⟩ := hin σ hA hσ
    refine ⟨x, hx, hc, fun m hm => ⟨fun p hp => ?_, ?_⟩⟩
    · exact (hkeepObj p hp).denotes (hm p hp)
    · obtain ⟨y, hy, hload⟩ := hloads σ x m hx hc hm
      exact ⟨r, y, rfl, hy, hload⟩
  | write value =>
    exact accessWrite_runs hl howns hop ht hr hwidth (hv value rfl).1
      (hv value rfl).2 hin

end

/-! ## Successors -/

theorem Accessed.of_before (h : Accessed A ctx address access w1 u op w' t)
    (hstack : u.stack = s.stack) (hobj : u.addressSpace.objects = s.addressSpace.objects)
    (hmem : ∀ σ m, w.Memory σ s.addressSpace.objects m → w1.Memory σ u.addressSpace.objects m) :
    Accessed A ctx address access w s op w' t where
  objects := by rw [h.objects, hobj]
  owns := h.owns
  effect σ hA hσ := by
    obtain ⟨x, hx, hc, heff⟩ := h.effect σ hA hσ
    refine ⟨x, hx, hc, fun m hm => ?_⟩
    have := heff m (hmem σ m hm)
    cases access with
    | read target =>
      obtain ⟨hm', r, y, ht, hr⟩ := this
      exact ⟨hm', r, y, ht.trans (congrArg (List.modifyHead _) hstack), hr⟩
    | write value => exact ⟨this.1.trans hstack, this.2⟩

theorem Accessed.of_after (h : Accessed A ctx address access w s op w1 t)
    (hkeep : ∀ p ∈ t.addressSpace.objects, (w1.heap p.2).view.Keeps (w'.heap p.2).view)
    (hnext : w1.nextObject ≤ w'.nextObject) : Accessed A ctx address access w s op w' t where
  objects := h.objects
  owns := h.owns.mono rfl le_rfl hkeep hnext
  effect σ hA hσ := by
    obtain ⟨x, hx, hc, heff⟩ := h.effect σ hA hσ
    have hmem : ∀ m, w1.Memory σ t.addressSpace.objects m →
        w'.Memory σ t.addressSpace.objects m :=
      fun m hm p hp => (hkeep p hp).denotes (hm p hp)
    refine ⟨x, hx, hc, fun m hm => ?_⟩
    have := heff m hm
    cases access with
    | read target => exact ⟨hmem m this.1, this.2⟩
    | write value =>
      refine ⟨this.1, fun n y hy => ?_⟩
      obtain ⟨m', hm', hst⟩ := this.2 n y hy
      exact ⟨m', hmem m' hm', hst⟩

end Executor

/-! ## Partitions of path conditions -/

/-- The path conditions `parts` have each model of `cs` once, and no other. -/
structure Partition (A : Valuation → Prop) (cs : List Expr)
    (parts : List (List Expr)) : Prop where
  path : ∀ ds ∈ parts, PathCondition A ds
  sub : ∀ ds ∈ parts, ∀ σ, A σ → AllHold σ ds → AllHold σ cs
  cover : ∀ σ, A σ → AllHold σ cs → ∃ ds ∈ parts, AllHold σ ds
  disjoint : parts.Pairwise fun ds es => ∀ σ, A σ → AllHold σ ds →
    ¬AllHold σ es

namespace Partition

variable {ds es : List Expr} {parts : List (List Expr)} {Q : Valuation → Prop}

theorem single (h : Narrows A cs P ds)
    (hP : ∀ σ, A σ → AllHold σ cs → P σ) : Partition A cs [ds] where
  path := by simpa using h.path
  sub := by simpa using fun σ hA hσ => ((h.models σ hA).mp hσ).1
  cover σ hA hσ := ⟨ds, by simp, (h.models σ hA).mpr ⟨hσ, hP σ hA hσ⟩⟩
  disjoint := by simp

theorem narrow (h : Narrows A cs P ds)
    (hP : ∀ σ, A σ → AllHold σ cs → P σ) (hds : Partition A ds parts) : Partition A cs parts where
  path := hds.path
  sub es hes σ hA hσ := ((h.models σ hA).mp (hds.sub es hes σ hA hσ)).1
  cover σ hA hσ := hds.cover σ hA ((h.models σ hA).mpr ⟨hσ, hP σ hA hσ⟩)
  disjoint := hds.disjoint

/-- Two sides, the second of which is split further. -/
theorem cons (hds : Narrows A cs P ds) (hes : Narrows A cs Q es)
    (hPQ : ∀ σ, A σ → AllHold σ cs → P σ ∨ Q σ)
    (hnot : ∀ σ, P σ → ¬Q σ) (hparts : Partition A es parts) : Partition A cs (ds :: parts) where
  path := by simpa using ⟨hds.path, hparts.path⟩
  sub fs hfs σ hA hσ := by
    rcases List.mem_cons.mp hfs with rfl | hfs
    · exact ((hds.models σ hA).mp hσ).1
    · exact ((hes.models σ hA).mp (hparts.sub fs hfs σ hA hσ)).1
  cover σ hA hσ := by
    rcases hPQ σ hA hσ with hP | hQ
    · exact ⟨ds, by simp, (hds.models σ hA).mpr ⟨hσ, hP⟩⟩
    · obtain ⟨fs, hfs, h⟩ := hparts.cover σ hA ((hes.models σ hA).mpr ⟨hσ, hQ⟩)
      exact ⟨fs, by simp [hfs], h⟩
  disjoint := by
    refine List.pairwise_cons.mpr ⟨fun fs hfs σ hA h h' => ?_, hparts.disjoint⟩
    exact hnot σ ((hds.models σ hA).mp h).2
      ((hes.models σ hA).mp (hparts.sub fs hfs σ hA h')).2

end Partition

/-! ## The loop over the resolution -/

namespace Executor

/-- What an access asks of the state it starts from. A write has a value, and
does not go to a read-only object; a read finds updates that can be counted. -/
structure Ready (A : Valuation → Prop) (ex : Executor S) (address : Expr)
    (access : MemoryAccess) (w : World S) (s : ExecutionState) : Prop where
  path : PathCondition A s.constraints
  normal : NormalMode w s
  owns : w.Owns s.addressSpace
  layout : AddressSpace.Layout ex.ctx s.addressSpace.objects
  valued : Valued A s.constraints address ex.ctx.pointerWidth
  writable : ∀ value, access = .write value →
    Typed value value.getWidth ∧ ∀ op ∈ s.addressSpace.objects, ∀ a,
      Points A s.constraints address ex.ctx.pointerWidth a →
      op.1.Contains (accessBytes access) a → (w.heap op.2).readOnly = false
  counted : ∀ target, access = .read target → ∀ op ∈ s.addressSpace.objects,
    (w.heap op.2).view.Counted (w.heap op.2).view.pending

/-- The states that have made the access, and the one in which it is outside of
the objects `rl`. -/
structure Accesses (A : Valuation → Prop) (ctx : Context) (address : Expr)
    (access : MemoryAccess) (w : World S) (s : ExecutionState)
    (rl : List ObjectPair) (w' : World S) (states : List ExecutionState)
    (error : Option ExecutionState) : Prop where
  partition : Partition A s.constraints
    ((states ++ error.toList).map (·.constraints))
  accessed : ∀ t ∈ states, ∃ op ∈ s.addressSpace.objects,
    Accessed A ctx address access w s op w' t
  outside : ∀ u, error = some u → ∀ σ, A σ → AllHold σ u.constraints →
    ∀ x : BitVec ctx.pointerWidth, Denotes σ address x →
      ∀ op ∈ rl, ¬op.1.Contains (accessBytes access) x.toNat

/-- The states that the loop leaves. -/
structure Resolved (A : Valuation → Prop) (ctx : Context) (address : Expr)
    (access : MemoryAccess) (w : World S) (s : ExecutionState)
    (rl : List ObjectPair) (w' : World S)
    (r : List ExecutionState × Option ExecutionState) : Prop
    extends Accesses A ctx address access w s rl w' r.1 r.2 where
  frame : w.Frame s.addressSpace w'

/-- A state that a fork leaves is ready, if no byte has changed since. -/
theorem Ready.child (h : Ready A ex address access w s) (hu : Child A P n s u)
    (hkeep : ∀ p ∈ s.addressSpace.objects, (w.heap p.2).view.Keeps (w'.heap p.2).view)
    (hnext : w.nextObject ≤ w'.nextObject) (hreplay : w'.replayPath = w.replayPath)
    (hsim : w'.is_simulation_mode = w.is_simulation_mode) : Ready A ex address access w' u where
  path := hu.narrows.path
  normal := ⟨hreplay.trans h.normal.replayPath, hsim.trans h.normal.simulation,
    hu.forkDisabled.trans h.normal.forkDisabled⟩
  owns := h.owns.mono hu.objects (by rw [hu.cowKey]; omega) hkeep hnext
  layout := hu.objects ▸ h.layout
  valued σ hA hσ := h.valued σ hA ((hu.narrows.models σ hA).mp hσ).1
  writable value hv := by
    obtain ⟨ht, hro⟩ := h.writable value hv
    refine ⟨ht, ?_⟩
    rw [hu.objects]
    rintro op hop a ⟨σ, hA, hσ, hx⟩ hc
    have := hro op hop a ⟨σ, hA, ((hu.narrows.models σ hA).mp hσ).1, hx⟩ hc
    exact (hkeep op hop).same.readOnly.trans this
  counted target htarget := by
    rw [hu.objects]
    exact fun op hop => (hkeep op hop).counted (h.counted target htarget op hop)

theorem Untouched.keeps (h : Untouched w w') (howns : w.Owns s.addressSpace) :
    ∀ p ∈ s.addressSpace.objects, (w.heap p.2).view.Keeps (w'.heap p.2).view := by
  intro p hp
  rw [h.heap]
  exact .refl (howns.wf p hp)

/-- A state that forked writes to none of the object states there were. -/
theorem frame_keeps (hun : Untouched w w1) (howns : w.Owns s.addressSpace)
    (hb : Child A P 1 s b) (h : w1.Frame b.addressSpace w') : ∀ p ∈ s.addressSpace.objects,
      (w.heap p.2).view.Keeps (w'.heap p.2).view := by
  intro p hp
  have := h.keeps p.2 (hun.nextObject ▸ howns.allocated p hp)
  rw [hun.heap, hb.cowKey] at this
  exact this (howns.wf p hp) (.inr (Nat.lt_succ_of_le (howns.owner p hp)))

section

variable (hun : Untouched w w1) (hb : Child A P n s b)

include hun hb

/-- An access of a child is one of the state, if no byte has changed since. -/
theorem Accessed.child (h : Accessed A ctx address access w1 b op w' t) :
    Accessed A ctx address access w s op w' t := by
  refine h.of_before hb.stack hb.objects fun σ m hm => ?_
  rw [hb.objects]
  intro p hp
  rw [hun.heap]
  exact hm p hp

/-- A frame of a child is one of the state. -/
theorem frame_child (h : w1.Frame b.addressSpace w') : w.Frame s.addressSpace w' := by
  obtain ⟨hnext, hkeeps, hreplay, hsim, hterm⟩ := h
  rw [hun.nextObject, hun.heap] at *
  refine ⟨hnext, fun ref href hwf hfree => hkeeps ref href hwf ?_,
    hreplay.trans hun.replayPath, hsim.trans hun.simulation,
    hterm.trans hun.terminated⟩
  rw [hb.objects, hb.cowKey]
  exact hfree.imp_right fun h => by omega

end

end Executor

theorem World.Frame.trans (h : w.Frame as w') (h' : w'.Frame as' w'')
    (hobj : as'.objects = as.objects) (hkey : as.cowKey ≤ as'.cowKey) : w.Frame as w'' where
  nextObject := h.nextObject.trans h'.nextObject
  keeps ref href hwf hfree := by
    have hk := h.keeps ref href hwf hfree
    refine hk.trans (h'.keeps ref (href.trans_le h.nextObject) hk.wf ?_)
    rw [hobj]
    refine hfree.imp_right fun hlt => ?_
    have : (w'.heap ref).copyOnWriteOwner = (w.heap ref).copyOnWriteOwner :=
      hk.same.owner
    omega
  replayPath := h'.replayPath.trans h.replayPath
  simulation := h'.simulation.trans h.simulation
  terminated := h'.terminated.trans h.terminated

theorem World.Frame.refl : w.Frame as w :=
  ⟨le_rfl, fun _ _ hwf _ => .refl hwf, rfl, rfl, rfl⟩

namespace Executor

variable {error : Option ExecutionState} {states : List ExecutionState}

/-- The side of a fork in which the access is in the bounds of `op`. -/
theorem bound_runs {c : Expr} (hwidth : Storable (accessWidth access))
    (hr : address.Reduced) (h : Ready A ex address access w s)
    (hop : op ∈ s.addressSpace.objects) (hd : Decides address ex.ctx.pointerWidth c
      (op.1.Contains (accessBytes access))) (hun : Untouched w w1)
    (hb : Child A (fun σ => Holds σ c) n s b) :
    Runs (ex.accessObject b op (op.1.getOffsetExpr ex.solver.constArrayOpt ex.ctx
        address) access) w1 fun r w2 => ∃ t, r = some t ∧
      Performed A ex.ctx address access w s op w1 b w2 t := by
  have hb' : Ready A ex address access w1 b := h.child hb (hun.keeps h.owns)
    hun.nextObject.ge hun.replayPath hun.simulation
  have hop' : op ∈ b.addressSpace.objects := hb.objects ▸ hop
  have hin : Within A b.constraints address ex.ctx op.1 (accessBytes access) := by
    intro σ hA hσ
    obtain ⟨x, hx⟩ := hb'.valued σ hA hσ
    exact ⟨x, hx, (hd.holds_iff hx).mp ((hb.narrows.models σ hA).mp hσ).2⟩
  refine (accessObject_runs hb'.layout hb'.owns hop' (hb'.valued.typed hb'.path) hr
    hb'.path hwidth ?_ (fun target ht => hb'.counted target ht op hop') hin).imp ?_
  · intro value hv
    obtain ⟨htyped, hro⟩ := hb'.writable value hv
    obtain ⟨σ, hA, hσ⟩ := hb'.path.satisfiable
    obtain ⟨x, hx, hc⟩ := hin σ hA hσ
    exact ⟨htyped, hro op hop' _ ⟨σ, hA, hσ, x, hx, rfl⟩ hc⟩
  · rintro r w2 ⟨t, rfl, hsolver, hframe, hcs, hfresh, hacc⟩
    rw [hb.objects, hun.nextObject] at hfresh
    exact ⟨t, rfl, hsolver, hframe, hcs, hfresh, hacc.child hun hb⟩

/-- The access is always in `op`. -/
theorem Accesses.last {rl : List ObjectPair} (hop : op ∈ s.addressSpace.objects)
    (hb : Child A P n s b) (hP : ∀ σ, A σ → AllHold σ s.constraints → P σ)
    (ht : Performed A ctx address access w s op w1 b w' t) :
    Accesses A ctx address access w s rl w' [t] none where
  partition := by
    have := Partition.single hb.narrows hP
    rwa [← ht.constraints] at this
  accessed t' ht' := ⟨op, hop, List.mem_singleton.mp ht' ▸ ht.accessed⟩
  outside := by simp

namespace Resolved

variable {rest : List ObjectPair} {c : Expr} {w2 w3 : World S}
  {r : List ExecutionState × Option ExecutionState}

section

variable (hd : Decides address ctx.pointerWidth c (op.1.Contains (accessBytes access)))

include hd

/-- The state left unbound by the rest is not in `op` either. -/
theorem outside_cons (hu : Child A (fun σ => Fails σ c) n s u)
    (h : Resolved A ctx address access w1 u rest w2 r) :
    ∀ v, r.2 = some v → ∀ σ, A σ → AllHold σ v.constraints →
      ∀ x : BitVec ctx.pointerWidth, Denotes σ address x →
        ∀ op' ∈ op :: rest, ¬op'.1.Contains (accessBytes access) x.toNat := by
  intro v hv σ hA hσ x hx op' hop'
  rcases List.mem_cons.mp hop' with rfl | hop'
  · have hσu := h.partition.sub v.constraints (by simp [hv]) σ hA hσ
    exact (hd.fails_iff hx).mp ((hu.narrows.models σ hA).mp hσu).2
  · exact h.outside v hv σ hA hσ x hx op' hop'

/-- The access is never in `op`. -/
theorem skip (hun : Untouched w w1) (hu : Child A (fun σ => Fails σ c) n s u)
    (hF : ∀ σ, A σ → AllHold σ s.constraints → Fails σ c)
    (h : Resolved A ctx address access w1 u rest w2 r) :
    Resolved A ctx address access w s (op :: rest) w2 r where
  frame := frame_child hun hu h.frame
  partition := h.partition.narrow hu.narrows hF
  accessed t ht := by
    obtain ⟨op', hop', hacc⟩ := h.accessed t ht
    exact ⟨op', hu.objects ▸ hop', hacc.child hun hu⟩
  outside := outside_cons hd hu h

/-- The access is in `op` under some models. After the fork, no object state of
`s` is owned, so neither `t` nor what comes of `u` changes the other. -/
theorem fork (howns : w.Owns s.addressSpace) (hop : op ∈ s.addressSpace.objects)
    (hsides : ∀ σ, A σ → AllHold σ s.constraints → Holds σ c ∨ Fails σ c)
    (hun : Untouched w w1) (hb : Child A (fun σ => Holds σ c) 1 s b)
    (hu : Child A (fun σ => Fails σ c) 1 s u) (ht : Performed A ctx address access w s op w1 b w2 t)
    (h : Resolved A ctx address access w2 u rest w3 r) :
    Resolved A ctx address access w s (op :: rest) w3 (t :: r.1, r.2) where
  frame := (frame_child hun hb ht.frame).trans h.frame hu.objects
    (by rw [hu.cowKey]; omega)
  partition := by
    have := Partition.cons hb.narrows hu.narrows hsides
      (fun σ hh => Holds.not_fails hh) h.partition
    rwa [← ht.constraints] at this
  accessed t' ht' := by
    have hkeep := frame_keeps hun howns hb ht.frame
    have hacc := ht.accessed
    rcases List.mem_cons.mp ht' with rfl | ht'
    · refine ⟨op, hop, hacc.of_after (fun p hp => ?_) h.frame.nextObject⟩
      refine h.frame.keeps p.2 (hacc.owns.allocated p hp) (hacc.owns.wf p hp) ?_
      rw [hu.objects, hu.cowKey]
      rcases ht.fresh p hp with hp | hp
      · have h₁ := howns.owner p hp
        have h2 : (w2.heap p.2).copyOnWriteOwner =
          (w.heap p.2).copyOnWriteOwner := (hkeep p hp).same.owner
        exact .inr (by omega)
      · refine .inl fun q hq => ?_
        have := howns.allocated q hq
        omega
    · obtain ⟨op', hop', hacc'⟩ := h.accessed t' ht'
      refine ⟨op', hu.objects ▸ hop', hacc'.of_before hu.stack hu.objects fun σ m hm => ?_⟩
      rw [hu.objects]
      exact fun p hp => (hkeep p hp).denotes (hm p hp)
  outside v hv := outside_cons hd hu h v hv

end

end Resolved

theorem boundLoop_runs (hex : ex.Unlimited) (hsolver : ex.solver.solver.Correct A False Inv)
    (hw : 32 ≤ ex.ctx.pointerWidth) (hr : address.Reduced)
    (hwidth : Storable (accessWidth access)) (rl : List ObjectPair) :
    ∀ {s : ExecutionState} {w : World S}, Inv w.solver →
      Ready A ex address access w s → (∀ op ∈ rl, op ∈ s.addressSpace.objects) →
      Runs (ex.boundLoop address access rl s) w fun r w' => Inv w'.solver ∧
        Resolved A ex.ctx address access w s rl w' r := by
  have hpos := accessBytes_pos hwidth
  induction rl with
  | nil =>
    intro s w hInv h _
    exact .pure ⟨hInv, ⟨.single (.refl h.path fun _ _ _ => trivial)
      (fun _ _ _ => trivial), by simp, by simp⟩, .refl⟩
  | cons op rest ih =>
    intro s w hInv h hrl
    have hop := hrl op (by simp)
    have hd := MemoryObject.getBoundsCheckPointerBytes_decides
      ex.solver.constArrayOpt address hpos hw (h.layout.fits op hop)
    set c := op.1.getBoundsCheckPointerBytes ex.solver.constArrayOpt ex.ctx
      address (accessBytes access) with hc
    have hsides : ∀ σ, A σ → AllHold σ s.constraints → Holds σ c ∨ Fails σ c := by
      intro σ hA hσ
      obtain ⟨x, hx⟩ := hd.valued h.valued σ hA hσ
      exact holds_or_fails hx
    rw [boundLoop]
    refine .bind (fork_runs hex h.normal h.path (hd.valued h.valued) true hsolver hInv) ?_
    rintro ⟨bound, unbound⟩ w1 ⟨hun, hInv1, hsplit⟩
    cases bound with
    | none =>
      -- All models are on the other side, which is the state itself.
      have hF : ∀ σ, A σ → AllHold σ s.constraints → Fails σ c := by
        intro σ hA hσ
        refine (hsides σ hA hσ).resolve_left fun hh => ?_
        simpa using hsplit.left_iff.mpr ⟨σ, hA, hσ, hh⟩
      obtain ⟨σ0, hA0, hσ0⟩ := h.path.satisfiable
      obtain ⟨u, hu⟩ := Option.isSome_iff_exists.mp
        (hsplit.right_iff.mpr ⟨σ0, hA0, hσ0, hF σ0 hA0 hσ0⟩)
      simp only at hu
      subst hu
      have hchild := hsplit.right u rfl
      have hu' : Ready A ex address access w1 u := h.child hchild
        (hun.keeps h.owns) hun.nextObject.ge hun.replayPath hun.simulation
      simp only [pure_bind]
      refine .bind (ih hInv1 hu' fun op' hop' => by
        rw [hchild.objects]
        exact hrl op' (by simp [hop'])) ?_
      rintro r w2 ⟨hInv2, hres⟩
      exact .pure ⟨hInv2, hres.skip hd hun hchild hF⟩
    | some b =>
      have hb := hsplit.left b rfl
      simp only [pure_bind]
      refine .bind (bound_runs hwidth hr h hop hd hun hb) ?_
      rintro _ w2 ⟨t, rfl, ht⟩
      have hframe := ht.frame
      have hInv2 : Inv w2.solver := ht.solver ▸ hInv1
      cases unbound with
      | none =>
        have hT : ∀ σ, A σ → AllHold σ s.constraints → Holds σ c := by
          intro σ hA hσ
          refine (hsides σ hA hσ).resolve_right fun hf => ?_
          simpa using hsplit.right_iff.mpr ⟨σ, hA, hσ, hf⟩
        exact .pure ⟨hInv2, .last hop hb hT ht, frame_child hun hb hframe⟩
      | some u =>
        have hu := hsplit.right u rfl
        have hu' : Ready A ex address access w2 u := h.child hu
          (frame_keeps hun h.owns hb hframe)
          (hun.nextObject.ge.trans hframe.nextObject)
          (hframe.replayPath.trans hun.replayPath)
          (hframe.simulation.trans hun.simulation)
        refine .bind (ih hInv2 hu' fun op' hop' => by
          rw [hu.objects]
          exact hrl op' (by simp [hop'])) ?_
        rintro r w3 ⟨hInv3, hres⟩
        exact .pure ⟨hInv3, .fork hd h.owns hop hsides hun hb hu ht hres⟩

/-! ## The whole operation -/

/-- The array optimizer keeps values. Without one it is the identity. -/
def SoundOptimizer (ex : Executor S) : Prop :=
  ∀ e : Expr, (∀ σ (n : Nat) (x : BitVec n), Denotes σ e x →
    Denotes σ (ex.optimizeExpr e) x) ∧
    (e.Reduced → (ex.optimizeExpr e).Reduced)

/-- An access and a simplified form of it. -/
structure Restates (A : Valuation → Prop) (cs : List Expr) (address : Expr)
    (access : MemoryAccess) (address' : Expr) (access' : MemoryAccess) :
    Prop where
  address : ∀ σ, A σ → AllHold σ cs → ∀ (n : Nat) (x : BitVec n),
    Denotes σ address x → Denotes σ address' x
  access : access' = access ∨ ∃ value value', access = .write value ∧
    access' = .write value' ∧ (∀ n, Typed value n → Typed value' n) ∧
    ∀ σ, A σ → AllHold σ cs → ∀ (n : Nat) (y : BitVec n),
      Denotes σ value y → Denotes σ value' y

section

theorem Restates.refl : Restates A cs address access address access :=
  ⟨fun _ _ _ _ _ => id, .inl rfl⟩

theorem Restates.optimize (hopt : ex.SoundOptimizer)
    (h : Restates A cs address access address' access') :
    Restates A cs address access (ex.optimizeExpr address') access' :=
  ⟨fun σ hA hσ n x hx => (hopt address').1 σ n x (h.address σ hA hσ n x hx), h.access⟩

variable (hr : Restates A s.constraints address access address' access')
  (h : Ready A ex address access w s)

include hr h

theorem Restates.width : accessWidth access' = accessWidth access := by
  rcases hr.access with rfl | ⟨value, value', rfl, rfl, ht, -⟩
  · rfl
  · exact (ht _ (h.writable value rfl).1).getWidth_eq

theorem Restates.bytes : accessBytes access' = accessBytes access := by
  rw [accessBytes, hr.width h, accessBytes]

/-- The simplified address has the values of the address. -/
theorem Restates.denotes_iff (hA : A σ) (hσ : AllHold σ s.constraints)
    (x : BitVec ex.ctx.pointerWidth) : Denotes σ address' x ↔ Denotes σ address x := by
  obtain ⟨y, hy⟩ := h.valued σ hA hσ
  constructor
  · intro hx
    exact (hr.address σ hA hσ _ y hy).unique hx ▸ hy
  · exact hr.address σ hA hσ _ x

theorem Ready.restate : Ready A ex address' access' w s where
  path := h.path
  normal := h.normal
  owns := h.owns
  layout := h.layout
  valued σ hA hσ := by
    obtain ⟨x, hx⟩ := h.valued σ hA hσ
    exact ⟨x, hr.address σ hA hσ _ x hx⟩
  writable value hv := by
    have hro : ∀ v, access = .write v → ∀ op ∈ s.addressSpace.objects, ∀ a,
        Points A s.constraints address' ex.ctx.pointerWidth a →
        op.1.Contains (accessBytes access') a →
        (w.heap op.2).readOnly = false := by
      rintro v hv op hop a ⟨σ, hA, hσ, x, hx, hxa⟩ hc
      exact (h.writable v hv).2 op hop a
        ⟨σ, hA, hσ, x, (hr.denotes_iff h hA hσ x).mp hx, hxa⟩ (hr.bytes h ▸ hc)
    rcases hr.access with rfl | ⟨v, v', rfl, rfl, ht, -⟩
    · exact ⟨(h.writable value hv).1, hro value hv⟩
    · cases hv
      have := ht _ (h.writable v rfl).1
      exact ⟨this.getWidth_eq ▸ this, hro v rfl⟩
  counted target ht := by
    rcases hr.access with rfl | ⟨v, v', rfl, rfl, -, -⟩
    · exact h.counted target ht
    · cases ht

theorem Accessed.restate (hsub : ∀ σ, A σ → AllHold σ t.constraints → AllHold σ s.constraints)
    (hacc : Accessed A ex.ctx address' access' w s op w' t) :
    Accessed A ex.ctx address access w s op w' t where
  objects := hacc.objects
  owns := hacc.owns
  effect σ hA hσ := by
    obtain ⟨x, hx, hc, heff⟩ := hacc.effect σ hA hσ
    have hσ' := hsub σ hA hσ
    refine ⟨x, (hr.denotes_iff h hA hσ' x).mp hx, hr.bytes h ▸ hc, fun m hm => ?_⟩
    have := heff m hm
    rcases hr.access with rfl | ⟨v, v', rfl, rfl, -, hv⟩
    · exact this
    · exact ⟨this.1, fun n y hy => this.2 n y (hv σ hA hσ' n y hy)⟩

end

/-- The states that go on after a memory operation, and the one that ends in an
error. -/
structure Outcome (A : Valuation → Prop) (ctx : Context) (address : Expr)
    (access : MemoryAccess) (w : World S) (s : ExecutionState) (w' : World S)
    (states : List ExecutionState) (error : Option ExecutionState) : Prop
    extends Accesses A ctx address access w s s.addressSpace.objects w' states error where
  terminated : ∃ message, w'.terminated =
    w.terminated ++ error.toList.map (⟨·, .ptr, message⟩)

/-- Only the solver has worked. -/
theorem Untouched.of_solver (h : w' = { w with solver := w'.solver }) :
    Untouched w w' := by
  rw [h]
  exact ⟨rfl, rfl, rfl, rfl, rfl, rfl⟩

theorem Child.self (h : PathCondition A s.constraints)
    (hP : ∀ σ, A σ → AllHold σ s.constraints → P σ) : Child A P 0 s s :=
  ⟨.refl h hP, rfl, rfl, rfl, rfl⟩

theorem Ready.untouched (h : Ready A ex address access w s)
    (hun : Untouched w w') : Ready A ex address access w' s :=
  h.child (Child.self (P := fun _ => True) h.path fun _ _ _ => trivial)
    (hun.keeps h.owns) hun.nextObject.ge hun.replayPath hun.simulation

theorem Outcome.untouched (hun : Untouched w w1)
    (h : Outcome A ctx address access w1 s w' states error) :
    Outcome A ctx address access w s w' states error where
  partition := h.partition
  accessed t ht := by
    obtain ⟨op, hop, hacc⟩ := h.accessed t ht
    refine ⟨op, hop, hacc.of_before rfl rfl fun σ m hm p hp => ?_⟩
    rw [hun.heap]
    exact hm p hp
  outside := h.outside
  terminated := hun.terminated ▸ h.terminated

theorem Outcome.restate (hr : Restates A s.constraints address access address' access')
    (h : Ready A ex address access w s)
    (ho : Outcome A ex.ctx address' access' w s w' states error) :
    Outcome A ex.ctx address access w s w' states error where
  partition := ho.partition
  accessed t ht := by
    obtain ⟨op, hop, hacc⟩ := ho.accessed t ht
    have hmem : t.constraints ∈ (states ++ error.toList).map (·.constraints) :=
      List.mem_map_of_mem (List.mem_append.mpr (.inl ht))
    exact ⟨op, hop, hacc.restate hr h (ho.partition.sub _ hmem)⟩
  outside u hu σ hA hσ x hx op hop := by
    have hmem : u.constraints ∈ (states ++ error.toList).map (·.constraints) := by
      simp [hu]
    have hσ' := ho.partition.sub _ hmem σ hA hσ
    rw [← hr.bytes h]
    exact ho.outside u hu σ hA hσ x ((hr.denotes_iff h hA hσ' x).mpr hx) op hop
  terminated := ho.terminated

theorem simplifyIndices_runs (hred : address.Reduced) (h : Ready A ex address access w s) :
    Runs (ex.simplifyIndices s address access) w fun r w' => w' = w ∧
      r.1.Reduced ∧ Restates A s.constraints address access r.1 r.2 := by
  unfold simplifyIndices
  by_cases hsimp : ex.simplifySymIndices
  · rw [if_pos hsimp]
    obtain ⟨σ0, -, hσ0⟩ := h.path.satisfiable
    have hrun (e : Expr) := ConstraintManager.simplifyExpr_simplifies
      ex.solver.constArrayOpt h.path.boolean hσ0.not_someFails (le_refl e.weight)
    obtain ⟨address', haddr, hs⟩ := hrun address
    have hr' := Expr.reduced_iff_everywhere.mpr
      (ConstraintManager.simplifyExpr_everywhere (Expr.reduced_iff_everywhere.mp hred) haddr)
    refine .except_bind haddr ?_
    cases access with
    | read target =>
      exact .pure ⟨rfl, hr', fun σ _ hσ n x hx => (hs σ hσ.not_someFails).value hx, .inl rfl⟩
    | write value =>
      obtain ⟨value', hval, hsv⟩ := hrun value
      refine .except_bind hval (.pure ⟨rfl, hr', fun σ _ hσ n x hx =>
        (hs σ hσ.not_someFails).value hx, .inr ⟨value, value', rfl, rfl,
          fun n => (hsv σ0 hσ0.not_someFails).typed, fun σ _ hσ n y hy =>
          (hsv σ hσ.not_someFails).value hy⟩⟩)
  · rw [if_neg hsimp]
    exact .pure ⟨rfl, hred, .refl⟩

section

variable (hsolver : ex.solver.solver.Correct A False Inv) (hopt : ex.SoundOptimizer)
  (hw : 32 ≤ ex.ctx.pointerWidth) (hred : address.Reduced)
  (hwidth : Storable (accessWidth access)) (hInv : Inv w.solver)
  (h : Ready A ex address access w s)

include hsolver hopt hw hred hwidth hInv h

theorem slowPath_runs (hex : ex.Unlimited) :
    Runs (ex.slowPath s address access) w fun states w' => Inv w'.solver ∧
      ∃ error, Outcome A ex.ctx address access w s w' states error := by
  have hpos := accessBytes_pos hwidth
  have hrest : Restates A s.constraints address access
      (ex.optimizeExpr address) access := Restates.refl.optimize hopt
  have h' := Ready.restate hrest h
  refine .bind (liftSolver_runs (AddressSpace.resolve_runs hsolver h'.path
    h'.valued hw h'.layout hInv)) ?_
  rintro ⟨incomplete, rl⟩ w1 ⟨hw1, hInv1, hcomplete, -, hexact⟩
  simp only at hcomplete hexact
  subst hcomplete
  have hrl : ∀ op ∈ rl, op ∈ s.addressSpace.objects :=
    fun op hop => ((hexact op).mp hop).1
  have hun := Untouched.of_solver hw1
  refine .bind (boundLoop_runs hex hsolver hw ((hopt address).2 hred) hwidth rl
    hInv1 (h'.untouched hun) hrl) ?_
  rintro ⟨states, unbound⟩ w2 ⟨hInv2, hres⟩
  have hout (w3 : World S) (hheap : w3.heap = w2.heap)
      (hnext : w3.nextObject = w2.nextObject)
      (hterm : ∃ message, w3.terminated =
        w1.terminated ++ unbound.toList.map (⟨·, .ptr, message⟩)) :
      Outcome A ex.ctx (ex.optimizeExpr address) access w1 s w3 states unbound := by
    refine ⟨⟨hres.partition, fun t ht => ?_, fun u hu σ hA hσ x hx op hop hc => ?_⟩, hterm⟩
    · obtain ⟨op, hop, hacc⟩ := hres.accessed t ht
      refine ⟨op, hop, hacc.of_after (fun p hp => ?_) hnext.ge⟩
      rw [hheap]
      exact .refl (hacc.owns.wf p hp)
    · have hσ' := hres.partition.sub u.constraints (by simp [hu]) σ hA hσ
      exact hres.outside u hu σ hA hσ x hx op
        ((hexact op).mpr ⟨hop, _, ⟨σ, hA, hσ', x, hx, rfl⟩, hc.covers hpos⟩) hc
  have hterm := hres.frame.terminated
  cases unbound with
  | none =>
    exact .pure ⟨hInv2, none, ((hout w2 rfl rfl ⟨"", by simpa using hterm⟩).untouched
      hun).restate hrest h⟩
  | some u =>
    simp only [Bool.false_eq_true, if_false]
    refine .modify_bind (.pure ⟨hInv2, some u, Outcome.restate hrest h
      (.untouched hun (hout _ rfl rfl ⟨ex.unboundMessage u (ex.optimizeExpr address) access, ?_⟩))⟩)
    simp [hterm]

/-- The fast path ends the operation when the whole access is certainly in the
object, and leaves all as it was otherwise. -/
theorem fastPath_runs (harray : ex.maxSymArraySize = 0) (hop : op ∈ s.addressSpace.objects) :
    Runs (ex.fastPath s address access op) w fun r w' => Inv w'.solver ∧
      ((∃ states, r = .inl states ∧ Outcome A ex.ctx address access w s w' states none) ∨
        r = .inr (s, address) ∧ Untouched w w') := by
  have hpos := accessBytes_pos hwidth
  unfold fastPath
  rw [if_neg (by simp [harray]), pure_bind]
  have hd : Decides address ex.ctx.pointerWidth
      (ex.optimizeExpr (op.1.getBoundsCheckPointerBytes ex.solver.constArrayOpt
        ex.ctx address (accessBytes access)))
      (op.1.Contains (accessBytes access)) := fun σ x hx =>
    (hopt _).1 σ 1 _ (MemoryObject.getBoundsCheckPointerBytes_decides
      ex.solver.constArrayOpt address hpos hw (h.layout.fits op hop) σ x hx)
  refine .bind (liftSolver_runs (TimingSolver.mustBeTrue_decides hsolver h.path
    h.valued hd hInv)) ?_
  rintro _ w1 ⟨hw1, hInv1, b, rfl, hb⟩
  have hun := Untouched.of_solver hw1
  cases b with
  | false => exact .pure ⟨hInv1, .inr ⟨rfl, hun⟩⟩
  | true =>
    have hent := (hd.entailed_iff h.valued).mpr (hb.mp rfl)
    have hself := Child.self h.path hent
    refine .bind (bound_runs hwidth hred h hop hd hun hself) ?_
    rintro _ w2 ⟨t, rfl, ht⟩
    refine .pure ⟨ht.solver ▸ hInv1, .inl ⟨[t], rfl, .last hop hself hent ht, "", ?_⟩⟩
    simpa using ht.frame.terminated.trans hun.terminated

theorem executeMemoryOperation_runs (hex : ex.Unlimited) (harray : ex.maxSymArraySize = 0) :
    Runs (ex.executeMemoryOperation s address access) w fun states w' => Inv w'.solver ∧
      ∃ error, Outcome A ex.ctx address access w s w' states error := by
  refine .bind (simplifyIndices_runs hred h) ?_
  rintro ⟨address', access'⟩ w0 ⟨hw0, hred', hrest⟩
  rw [hw0]
  replace hrest := Restates.optimize hopt hrest
  have h' := Ready.restate hrest h
  have hred'' := (hopt address').2 hred'
  have hwidth' : Storable (accessWidth access') := hrest.width h ▸ hwidth
  simp only at hrest h' hred'' ⊢
  refine Runs.imp (P := fun states w' => Inv w'.solver ∧ ∃ error,
    Outcome A ex.ctx (ex.optimizeExpr address') access' w s w' states error) ?_ ?_
  · refine .bind (liftSolver_runs (AddressSpace.resolveOne_runs hsolver h'.path
      h'.valued hw h'.layout hInv)) ?_
    rintro _ w1 ⟨hw1, hInv1, o, rfl, ho⟩
    have hun := Untouched.of_solver hw1
    have hslow {w2 : World S} (hun : Untouched w w2) (hInv2 : Inv w2.solver) :
        Runs (ex.slowPath s (ex.optimizeExpr address') access') w2
          fun states w' => Inv w'.solver ∧ ∃ error, Outcome A ex.ctx
            (ex.optimizeExpr address') access' w s w' states error := by
      refine (slowPath_runs hsolver hopt hw hred'' hwidth' hInv2 (h'.untouched hun) hex).imp ?_
      rintro states w' ⟨hInv', error, hout⟩
      exact ⟨hInv', error, hout.untouched hun⟩
    simp only [pure_bind]
    cases o with
    | none => exact hslow hun hInv1
    | some op =>
      refine .bind (fastPath_runs hsolver hopt hw hred'' hwidth' hInv1
        (h'.untouched hun) harray (ho.found op rfl).1) ?_
      rintro r w2 ⟨hInv2, ⟨states, rfl, hout⟩ | ⟨rfl, hun2⟩⟩
      · exact .pure ⟨hInv2, none, hout.untouched hun⟩
      · exact hslow (hun.trans hun2) hInv2
  · rintro states w' ⟨hInv', error, hout⟩
    exact ⟨hInv', error, hout.restate hrest h⟩

end

/-- How a memory operation splits a state: the successors and the error state
have each model of its path condition once. In a successor the whole access is
in one object, which no other contains, and exactly its bytes were read or
written. There is an error state just when some model puts the access outside
every object. -/
structure MemorySplit (A : Valuation → Prop) (ctx : Context) (address : Expr)
    (access : MemoryAccess) (w : World S) (s : ExecutionState) (w' : World S)
    (states : List ExecutionState) (error : Option ExecutionState) : Prop where
  partition : Partition A s.constraints
    ((states ++ error.toList).map (·.constraints))
  accessed : ∀ t ∈ states, ∃ op ∈ s.addressSpace.objects,
    Accessed A ctx address access w s op w' t
  unique : ∀ op ∈ s.addressSpace.objects, ∀ op' ∈ s.addressSpace.objects,
    ∀ a, op.1.Contains (accessBytes access) a →
      op'.1.Contains (accessBytes access) a → op = op'
  error_iff : error.isSome ↔ ∃ σ, A σ ∧ AllHold σ s.constraints ∧
    ∃ x : BitVec ctx.pointerWidth, Denotes σ address x ∧
      ∀ op ∈ s.addressSpace.objects,
        ¬op.1.Contains (accessBytes access) x.toNat
  terminated : ∃ message, w'.terminated =
    w.terminated ++ error.toList.map (⟨·, .ptr, message⟩)

end Executor

/-- A memory operation in normal mode splits the models of a state. The objects
are disjoint, and the object states are those of an address space; a write does
not go to a read-only object, and the updates of the objects can be counted when
it is a read. The address has a value under each model and is
built by the constructors, which fold sums of constants; the width is one that
the memory holds, as is asserted. -/
theorem Executor.executeMemoryOperation_splits (ex : Executor S)
    (A : Valuation → Prop) (Inv : S → Prop) (w : World S) (s : ExecutionState)
    (address : Expr) (access : MemoryAccess) (hex : ex.Unlimited)
    (hpointer : ex.ctx.pointerWidth = 32 ∨ ex.ctx.pointerWidth = 64)
    (harray : ex.maxSymArraySize = 0) (hopt : ex.SoundOptimizer)
    (hsolver : ex.solver.solver.Correct A False Inv) (hInv : Inv w.solver)
    (hwidth : Storable (accessWidth access)) (hred : address.Reduced)
    (h : Ready A ex address access w s) :
    ∃ states error w',
      ex.executeMemoryOperation s address access w = .ok (states, w') ∧
      MemorySplit A ex.ctx address access w s w' states error := by
  obtain ⟨states, w', hrun, -, error, hout⟩ := executeMemoryOperation_runs
    hsolver hopt (by omega) hred hwidth hInv h hex harray
  have hpos := accessBytes_pos hwidth
  refine ⟨states, error, w', hrun, hout.partition, hout.accessed, ?_, ?_,
    hout.terminated⟩
  · intro op hop op' hop' a hc hc'
    exact h.layout.unique hop hop' (hc.covers hpos) (hc'.covers hpos)
  · constructor
    · intro herr
      obtain ⟨u, rfl⟩ := Option.isSome_iff_exists.mp herr
      have hmem : u.constraints ∈
          (states ++ (some u).toList).map (·.constraints) := by simp
      obtain ⟨σ, hA, hσ⟩ := (hout.partition.path _ hmem).satisfiable
      have hσ' := hout.partition.sub _ hmem σ hA hσ
      obtain ⟨x, hx⟩ := h.valued σ hA hσ'
      exact ⟨σ, hA, hσ', x, hx, hout.outside u rfl σ hA hσ x hx⟩
    · rintro ⟨σ, hA, hσ, x, hx, hnone⟩
      obtain ⟨ds, hds, hσds⟩ := hout.partition.cover σ hA hσ
      obtain ⟨t, ht, rfl⟩ := List.mem_map.mp hds
      rcases List.mem_append.mp ht with ht | ht
      · obtain ⟨op, hop, hacc⟩ := hout.accessed t ht
        obtain ⟨y, hy, hc, -⟩ := hacc.effect σ hA hσds
        exact absurd (hx.unique hy ▸ hc) (hnone op hop)
      · rw [Option.isSome_iff_exists]
        exact ⟨t, Option.mem_toList.mp ht⟩

/-- An object of four bytes. -/
def MemoryObject.four : MemoryObject where
  id := 1
  address := 4096
  size := 4
  address_lt := page_lt_address
  size_lt := Array.four.size_lt

/-- The world in which that object alone was allocated, with zeros. -/
def World.four : World Unit :=
  { World.initial with
    heap := fun _ =>
      ⟨1, fun _ => 0, none, none, none, none, .null, 4, false, Array.four.size_lt⟩
    nextObject := 1 }

def ExecutionState.four : ExecutionState :=
  { ExecutionState.initial [] with
    addressSpace := ⟨1, [(MemoryObject.four, 0)]⟩ }

/-- Read two bytes at `4096 + arr[0]`, which is in the object when `arr[0] ≤ 2`. -/
theorem Executor.executeMemoryOperation_splits_read :
    let address := Expr.binary .add (Expr.const 4096 64)
      (.zext (.read Array.four .null (Expr.const 0 32)) 64)
    let access := MemoryAccess.read ⟨0, 16⟩
    Storable (accessWidth access) ∧ address.Reduced ∧
      Ready (fun _ => True) .ideal address access .four .four ∧
      ∃ states error w',
        Executor.ideal.executeMemoryOperation .four address access .four =
          .ok (states, w') ∧
        MemorySplit (fun _ => True) Executor.ideal.ctx address access .four .four
          w' states error := by
  intro address access
  have hred : address.Reduced := by
    simp [address, Expr.Reduced, UpdateNode.Reduced, Expr.const, Expr.isConstant]
  have hcount : ((World.four.heap 0).view).Counted (World.four.heap 0).view.pending :=
    .inr (by decide)
  have hready : Ready (fun _ => True) .ideal address access .four .four := by
    refine ⟨⟨List.forall_mem_nil _, fun σ _ => .inl (List.forall_mem_nil _),
        ⟨fun _ _ => 0, trivial, List.forall_mem_nil _⟩⟩,
      ⟨rfl, rfl, rfl⟩, ?_, ?_, fun σ _ _ => ?_, by simp [access], fun _ _ _ _ => hcount⟩
    · refine ⟨?_, ?_, ?_, ?_, ?_⟩ <;> simp only [ExecutionState.four,
        List.mem_singleton, forall_eq, List.pairwise_singleton]
      · rfl
      · exact ⟨rfl, fun i _ e he => by simp [World.four, ObjectState.view,
          ObjectState.knownSymbolic] at he, fun i _ _ => .inl rfl,
          fun i _ _ => rfl⟩
      · decide
      · decide
    · refine ⟨?_, ?_, ?_⟩ <;> simp only [ExecutionState.four,
        List.mem_singleton, forall_eq, List.pairwise_singleton]
      show 4096 + max 4 1 ≤ 2 ^ 64
      decide
    · exact ⟨_, denotes_binary.mpr ⟨_, _, denotes_const.mpr ⟨by decide, rfl⟩,
        denotes_zext.mpr ⟨8, _, by decide, denotes_read_four σ (by decide),
          rfl⟩, rfl⟩⟩
  refine ⟨by decide, hred, hready, ?_⟩
  exact Executor.executeMemoryOperation_splits .ideal (fun _ => True)
    (fun _ => True) .four .four address access
    ⟨rfl, rfl, rfl, rfl, rfl, fun _ => rfl⟩ (.inr rfl) rfl
    (fun e => ⟨fun _ _ _ h => h, fun h => h⟩) (SolverImpl.ideal_correct _)
    trivial (by decide) hred hready

end VitalSE
