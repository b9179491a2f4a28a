import VitalSE.Core.AddressSpaces

/-!
# Copies of an address space do not see each other's writes

An access to an object state leaves its owner alone, so the owners change only
where an object is bound, copied or created. The invariant is about owners and
keys: no object of an address space has an owner above its key, and an object
that two address spaces have is below the keys of both. A copy takes both sides
to a key that no object has; a write in place happens at the own key, and hence
to an object that no other address space has.
-/

namespace VitalSE

open Except (bind_eq_ok)
open Function (update_self update_of_ne)

variable {base size : Nat} {offset : Expr} {opt : Bool} {ctx : Context} {as : AddressSpace}
  {mo : MemoryObject}

namespace ObjectState

variable {os os' : ObjectState} {o : Nat} {e e' : Expr} {value : Expr}
  {readByte : Nat → ObjectM Expr}

/-! ## Accesses keep the owner -/

@[simp] theorem owner_markByteConcrete :
    (os.markByteConcrete o).copyOnWriteOwner = os.copyOnWriteOwner := by
  unfold markByteConcrete
  split <;> rfl

@[simp] theorem owner_markByteSymbolic :
    (os.markByteSymbolic o).copyOnWriteOwner = os.copyOnWriteOwner := rfl

@[simp] theorem owner_markByteUnflushed :
    (os.markByteUnflushed o).copyOnWriteOwner = os.copyOnWriteOwner := by
  unfold markByteUnflushed
  split <;> rfl

@[simp] theorem owner_markByteFlushed :
    (os.markByteFlushed o).copyOnWriteOwner = os.copyOnWriteOwner := by
  unfold markByteFlushed
  split <;> rfl

@[simp] theorem owner_setKnownSymbolic {value : Option Expr} :
    (os.setKnownSymbolic o value).copyOnWriteOwner = os.copyOnWriteOwner := by
  unfold setKnownSymbolic
  split <;> rfl

@[simp] theorem owner_dropCache : (os.dropCache o).copyOnWriteOwner = os.copyOnWriteOwner := by
  unfold dropCache
  split
  · simp
  · split <;> simp

@[simp] theorem owner_startFlush : os.startFlush.copyOnWriteOwner = os.copyOnWriteOwner := by
  unfold startFlush
  split <;> rfl

/-- The owner stays that of `os`. -/
def OwnerKept (os : ObjectState) (m : Except Abort ObjectState) : Prop :=
  ∀ os', m = .ok os' → os'.copyOnWriteOwner = os.copyOnWriteOwner

namespace OwnerKept

theorem ok (h : os'.copyOnWriteOwner = os.copyOnWriteOwner) : OwnerKept os (.ok os') := by
  intro _ heq
  cases heq
  exact h

theorem error {a : Abort} : OwnerKept os (.error a) := fun _ h => by cases h

theorem bind {m : Except Abort ObjectState} {f : ObjectState → Except Abort ObjectState}
    (h : OwnerKept os m) (hf : ∀ os, OwnerKept os (f os)) : OwnerKept os (m >>= f) := by
  intro os' heq
  obtain ⟨os1, h1, h2⟩ := bind_eq_ok.mp heq
  exact (hf os1 os' h2).trans (h os1 h1)

theorem foldlM {α : Type} {step : ObjectState → α → Except Abort ObjectState} {l : List α}
    (h : ∀ os i, OwnerKept os (step os i)) : OwnerKept os (l.foldlM step os) :=
  fun _ => Except.foldlM_keeps (R := fun b => b.copyOnWriteOwner = os.copyOnWriteOwner)
    (fun b i b' hb hstep => (h b i b' hstep).trans hb) rfl

end OwnerKept

theorem extend_owner : OwnerKept os (os.extend e e') := by
  unfold extend
  split
  · exact .error
  · split
    · exact .error
    · exact .ok rfl

theorem flushByte_owner : OwnerKept os (os.flushByte o) := by
  unfold flushByte
  split
  · exact extend_owner
  · split
    · exact extend_owner
    · exact .error

theorem flushByteForRead_owner : OwnerKept os (os.flushByteForRead o) := by
  unfold flushByteForRead
  split
  · exact .bind flushByte_owner fun _ => .ok (by simp)
  · exact .ok rfl

theorem flushByteForWrite_owner : OwnerKept os (os.flushByteForWrite o) := by
  unfold flushByteForWrite
  split
  · exact .bind flushByte_owner fun _ => .ok (by simp)
  · exact .ok (by simp)

theorem flushRangeForRead_owner : OwnerKept os (os.flushRangeForRead base size) := fun os' h =>
  (OwnerKept.foldlM (fun _ _ => flushByteForRead_owner) os' h).trans owner_startFlush

theorem flushRangeForWrite_owner : OwnerKept os (os.flushRangeForWrite base size) := fun os' h =>
  (OwnerKept.foldlM (fun _ _ => flushByteForWrite_owner) os' h).trans owner_startFlush

/-- A program on an object state that leaves its owner alone. -/
abbrev KeepsOwner {α : Type} (m : ObjectM α) : Prop :=
  Fixes (fun s => s.1.copyOnWriteOwner) m

theorem getUpdates_owner : KeepsOwner getUpdates := by
  rintro ⟨os, id⟩
  refine .get_bind ?_
  simp only
  split
  · exact .pure rfl
  · refine .except_bind fun os' hos' => .set_bind (.pure ?_)
    have h := OwnerKept.foldlM (fun _ _ => extend_owner) os' hos'
    exact h

theorem read8_owner : KeepsOwner (read8 opt o) := by
  rintro ⟨os, id⟩
  refine .get_bind ?_
  simp only
  split
  · exact .pure rfl
  · split
    · exact .pure rfl
    · split
      · exact .throw
      · exact .bind (getUpdates_owner _) fun _ _ h => .pure h

theorem read8Symbolic_owner : KeepsOwner (read8Symbolic opt e) := by
  rintro ⟨os, id⟩
  unfold read8Symbolic
  split
  · exact .throw
  · refine .get_bind (.except_bind fun os' hos' => .set_bind ?_)
    refine .bind (getUpdates_owner _) fun _ _ h => .pure ?_
    exact h.trans (flushRangeForRead_owner _ hos')

theorem readBytes_owner (h : ∀ i, KeepsOwner (readByte i)) (n : Nat) :
    KeepsOwner (readBytes readByte n) := by
  induction n with
  | zero => exact .pure
  | succ n ih => exact .bind ih fun _ => .bind (h n) fun _ => .pure

theorem readSlow_owner {message : String} {w : Nat} (h : ∀ i, KeepsOwner (readByte i)) :
    KeepsOwner (readSlow ctx message readByte w) := by
  unfold readSlow
  simp only
  split
  · exact .throw
  · refine .bind (readBytes_owner (fun i => h _) _) fun r => ?_
    cases r with
    | some e => exact .pure
    | none => exact .throw

theorem read_owner {w : Nat} : KeepsOwner (read opt ctx e w) := by
  unfold read
  split
  · unfold readConstant
    split
    · exact .bind read8_owner fun _ => .pure
    · exact readSlow_owner fun _ => read8_owner
  · split
    · exact .bind read8Symbolic_owner fun _ => .pure
    · exact readSlow_owner fun _ => read8Symbolic_owner

@[simp] theorem owner_write8Concrete {value : BitVec 8} :
    (os.write8Concrete o value).copyOnWriteOwner = os.copyOnWriteOwner := by
  simp [write8Concrete]

@[simp] theorem owner_write8 : (os.write8 o value).copyOnWriteOwner = os.copyOnWriteOwner := by
  unfold write8
  split <;> simp

theorem owner_foldl {step : ObjectState → Nat → ObjectState}
    (h : ∀ os i, (step os i).copyOnWriteOwner = os.copyOnWriteOwner) :
    ∀ {l : List Nat} {os : ObjectState},
      (l.foldl step os).copyOnWriteOwner = os.copyOnWriteOwner
  | [], _ => rfl
  | i :: l, os => (owner_foldl h (l := l)).trans (h os i)

theorem writeExpr_owner : OwnerKept os (os.writeExpr o ctx value) := by
  unfold writeExpr
  simp only
  split
  · exact .ok (by simp)
  · split
    · exact .error
    · exact .ok (owner_foldl fun _ _ => owner_write8)

theorem writeConstant_owner : OwnerKept os (os.writeConstant o ctx value) := by
  have hconcrete {n v : Nat} : OwnerKept os (.ok (os.writeConcrete o ctx n v)) :=
    .ok (owner_foldl fun _ _ => owner_write8Concrete)
  unfold writeConstant
  split
  · split
    · split
      · exact .ok (by simp)
      · exact .ok (by simp)
      · exact hconcrete
      · exact hconcrete
      · exact hconcrete
      · exact .error
    · exact writeExpr_owner
  · exact writeExpr_owner

theorem write8Symbolic_owner : OwnerKept os (os.write8Symbolic e e') := by
  unfold write8Symbolic
  split
  · exact .error
  · exact .bind flushRangeForWrite_owner fun _ => extend_owner

theorem write_owner : OwnerKept os (os.write opt ctx e e') := by
  unfold write
  split
  · exact writeConstant_owner
  · simp only
    split
    · exact write8Symbolic_owner
    · split
      · exact .error
      · exact .foldlM fun _ _ => write8Symbolic_owner

end ObjectState

/-! ## The invariant -/

namespace AddressSpace

variable {as' : AddressSpace} {op op' : ObjectPair} {l : List ObjectPair} {os : Nat}

theorem mem_replaceObject (h : op' ∈ replaceObject op l) : op' = op ∨ op' ∈ l := by
  induction l with
  | nil => exact .inl (List.mem_singleton.mp h)
  | cons q l ih =>
    rw [replaceObject] at h
    split at h
    · exact (List.mem_cons.mp h).imp_right id
    · split at h
      · exact (List.mem_cons.mp h).imp_right (List.mem_cons_of_mem q)
      · rcases List.mem_cons.mp h with rfl | h
        · exact .inr (by simp)
        · exact (ih h).imp_right (List.mem_cons_of_mem q)

theorem findObject_mem (h : as.findObject mo = some os) : ∃ mo', (mo', os) ∈ as.objects := by
  unfold findObject at h
  obtain ⟨op, hop, rfl⟩ := Option.map_eq_some_iff.mp h
  exact ⟨op.1, List.mem_of_find?_eq_some hop⟩

/-- The references of an address space. -/
def Refers (as : AddressSpace) (r : Nat) : Prop := ∃ op ∈ as.objects, op.2 = r

theorem refers_replace {r : Nat}
    (h : Refers { as with objects := replaceObject (mo, os) as.objects } r) :
    r = os ∨ as.Refers r := by
  obtain ⟨op, hop, rfl⟩ := h
  rcases mem_replaceObject hop with rfl | hop
  · exact .inl rfl
  · exact .inr ⟨op, hop, rfl⟩

/-- The map is ordered by address, and no object state stands for two
objects. -/
structure Tidy (as : AddressSpace) : Prop where
  ordered : as.objects.Pairwise fun p q => p.1.address < q.1.address
  distinct : (as.objects.map (·.2)).Nodup

theorem replaceObject_ordered (h : l.Pairwise fun p q => p.1.address < q.1.address) :
    (replaceObject op l).Pairwise fun p q => p.1.address < q.1.address := by
  induction l with
  | nil => simp [replaceObject]
  | cons q l ih =>
    obtain ⟨hq, hl⟩ := List.pairwise_cons.mp h
    rw [replaceObject]
    split
    · next hlt =>
      refine List.pairwise_cons.mpr ⟨fun p hp => ?_, h⟩
      rcases List.mem_cons.mp hp with rfl | hp
      · exact hlt
      · exact hlt.trans (hq p hp)
    · split
      · next heq => exact List.pairwise_cons.mpr ⟨fun p hp => heq ▸ hq p hp, hl⟩
      · refine List.pairwise_cons.mpr ⟨fun p hp => ?_, ih hl⟩
        rcases mem_replaceObject hp with rfl | hp
        · omega
        · exact hq p hp

theorem replaceObject_distinct (h : (l.map (·.2)).Nodup)
    (hop : op.2 ∉ l.map (·.2)) : ((replaceObject op l).map (·.2)).Nodup := by
  induction l with
  | nil => simp [replaceObject]
  | cons q l ih =>
    obtain ⟨hq, hl⟩ := List.nodup_cons.mp h
    simp only [List.map_cons, List.mem_cons, not_or] at hop
    rw [replaceObject]
    split
    · exact List.nodup_cons.mpr ⟨by simpa using hop, h⟩
    · split
      · exact List.nodup_cons.mpr ⟨hop.2, hl⟩
      · refine List.nodup_cons.mpr ⟨fun hmem => ?_, ih hl hop.2⟩
        obtain ⟨p, hp, heq⟩ := List.mem_map.mp hmem
        rcases mem_replaceObject hp with rfl | hp
        · exact hop.1 heq
        · exact hq (List.mem_map.mpr ⟨p, hp, heq⟩)

theorem Tidy.replace (h : as.Tidy) (mo : MemoryObject) (hos : ¬as.Refers os) :
    Tidy { as with objects := replaceObject (mo, os) as.objects } where
  ordered := replaceObject_ordered h.ordered
  distinct := by
    refine replaceObject_distinct h.distinct fun hmem => hos ?_
    obtain ⟨op, hop, heq⟩ := List.mem_map.mp hmem
    exact ⟨op, hop, heq⟩

theorem Tidy.unbind (h : as.Tidy) : (as.unbindObject mo).Tidy where
  ordered := h.ordered.sublist List.filter_sublist
  distinct := h.distinct.sublist (List.filter_sublist.map _)

end AddressSpace

namespace Spaces

variable {s s' : Spaces} {i : Nat} {os : Nat}

/-- The address space that may write to the object. -/
def owner (s : Spaces) (r : Nat) : Nat := (s.objects.heap r).copyOnWriteOwner

/-- Every object that an address space has exists, has an owner, and this is
below the key when another address space has the object too. -/
structure Isolated (s : Spaces) : Prop where
  tidy : ∀ i, (s.space i).Tidy
  key : ∀ i, 0 < (s.space i).cowKey
  allocated : ∀ i r, (s.space i).Refers r → r < s.objects.nextObject
  owned : ∀ i r, (s.space i).Refers r →
    0 < s.owner r ∧ s.owner r ≤ (s.space i).cowKey
  shared : ∀ i j r, i ≠ j → (s.space i).Refers r → (s.space j).Refers r →
    s.owner r < (s.space i).cowKey

theorem initial_isolated : initial.Isolated := by
  have hnone : ∀ i r, ¬(initial.space i).Refers r := by simp [initial, AddressSpace.Refers]
  exact ⟨fun _ => ⟨.nil, .nil⟩, fun _ => Nat.one_pos, fun i r h => absurd h (hnone i r),
    fun i r h => absurd h (hnone i r), fun i _ r _ h => absurd h (hnone i r)⟩

theorem space_setSpace_self : (s.setSpace i as).space i = as := update_self ..

theorem space_setSpace_of_ne {j : Nat} (h : j ≠ i) :
    (s.setSpace i as).space j = s.space j := update_of_ne h ..

theorem forall_space {P : Nat → AddressSpace → Prop} (hi : P i as)
    (hne : ∀ j ≠ i, P j (s.space j)) (j : Nat) : P j ((s.setSpace i as).space j) :=
  (Function.forall_update_iff s.space P).mpr ⟨hi, hne⟩ j

/-- What `getWriteable` does: it leaves all as it is, and the object is owned;
or it takes a new reference for a copy. -/
theorem getWriteable_yields (as : AddressSpace) (os : Nat) (h : ObjectHeap) :
    Yields (as.getWriteable mo os) h fun r h' =>
      (r = (as, os) ∧ h' = h ∧ as.cowKey = (h.heap os).copyOnWriteOwner) ∨
      (r = ({ as with objects :=
          AddressSpace.replaceObject (mo, h.nextObject) as.objects },
          h.nextObject) ∧
        h' = h.alloc { h.heap os with
          copyOnWriteOwner := as.cowKey, readOnly := false }) := by
  refine .get_bind ?_
  split
  · exact .throw
  · next hro =>
    split
    · next hown => exact .pure (.inl ⟨rfl, rfl, hown⟩)
    · refine .except_bind fun copy hcopy => .set_bind (.pure (.inr ⟨rfl, ?_⟩))
      rw [ObjectState.copy, if_neg hro] at hcopy
      cases hcopy
      rfl

theorem lookup_refers (hos : s.lookup i mo = .ok os) : (s.space i).Refers os := by
  unfold lookup at hos
  split at hos
  · next hfind =>
    cases hos
    obtain ⟨mo', hmem⟩ := AddressSpace.findObject_mem hfind
    exact ⟨_, hmem, rfl⟩
  · cases hos

theorem bindObject_yields (as : AddressSpace) (os : Nat) (h : ObjectHeap) :
    Yields (as.bindObject mo os) h fun r h' =>
      (h.heap os).copyOnWriteOwner = 0 ∧
      r = { as with objects := AddressSpace.replaceObject (mo, os) as.objects } ∧
      h' = h.store os { h.heap os with copyOnWriteOwner := as.cowKey } := by
  refine .get_bind ?_
  split
  · exact .throw
  · next hown => exact .set_bind (.pure ⟨not_ne_iff.mp hown, rfl, rfl⟩)

theorem of_guard {c : Prop} [Decidable c] {m : Except Abort Spaces} {a : Abort}
    (h : (if c then m else throw a) = .ok s') : m = .ok s' := by
  split at h
  · exact h
  · cases h

section

variable (h : s.Isolated)

include h

/-- An object at the own key is in no other address space. -/
theorem Isolated.exclusive {j r : Nat} (hi : (s.space i).Refers r)
    (howner : s.owner r = (s.space i).cowKey) (hij : j ≠ i) : ¬(s.space j).Refers r := by
  intro hj
  have := h.shared i j r hij.symm hi hj
  omega

/-- The invariant only looks at keys, references and owners. -/
theorem Isolated.congr (hspace : s'.space = s.space)
    (hnext : s.objects.nextObject ≤ s'.objects.nextObject)
    (howner : ∀ r < s.objects.nextObject, s'.owner r = s.owner r) : s'.Isolated where
  tidy i := hspace ▸ h.tidy i
  key i := hspace ▸ h.key i
  allocated i r hr := by
    rw [hspace] at hr
    exact (h.allocated i r hr).trans_le hnext
  owned i r hr := by
    rw [hspace] at hr ⊢
    rw [howner r (h.allocated i r hr)]
    exact h.owned i r hr
  shared i j r hij hi hj := by
    rw [hspace] at hi hj ⊢
    rw [howner r (h.allocated i r hi)]
    exact h.shared i j r hij hi hj

/-- An object state is replaced by one of the same owner. -/
theorem Isolated.store {obj : ObjectState} {space : Nat → AddressSpace}
    {count constArrays : Nat} (hspace : space = s.space)
    (howner : obj.copyOnWriteOwner = s.owner os) :
    Isolated ⟨s.objects.store os obj, constArrays, space, count⟩ := by
  refine h.congr hspace le_rfl fun r _ => ?_
  by_cases hr : r = os
  · subst hr
    simpa [owner, ObjectHeap.store] using howner
  · simp [owner, ObjectHeap.store, hr]

/-- An address space gives up some of its objects. -/
theorem Isolated.shrink (htidy : as.Tidy) (hkey : as.cowKey = (s.space i).cowKey)
    (hsub : ∀ r, as.Refers r → (s.space i).Refers r) : (s.setSpace i as).Isolated := by
  have hsp := forall_space (P := fun j as => as.cowKey = (s.space j).cowKey ∧
      (∀ r, as.Refers r → (s.space j).Refers r) ∧ as.Tidy) ⟨hkey, hsub, htidy⟩
    fun j _ => ⟨rfl, fun _ => id, h.tidy j⟩
  refine ⟨fun j => (hsp j).2.2, fun j => (hsp j).1 ▸ h.key j, fun j r hr => ?_, fun j r hr => ?_,
    fun j l r hjl hj hl => ?_⟩
  · exact h.allocated j r ((hsp j).2.1 r hr)
  · rw [(hsp j).1]
    exact h.owned j r ((hsp j).2.1 r hr)
  · rw [(hsp j).1]
    exact h.shared j l r hjl ((hsp j).2.1 r hj) ((hsp l).2.1 r hl)

/-- An address space takes an object that none has, and owns it. -/
theorem Isolated.take {objects : ObjectHeap}
    (hnone : ∀ j, ¬(s.space j).Refers os)
    (hos : (objects.heap os).copyOnWriteOwner = (s.space i).cowKey)
    (howner : ∀ r < s.objects.nextObject, r ≠ os → (objects.heap r).copyOnWriteOwner = s.owner r)
    (hlt : os < objects.nextObject) (hnext : s.objects.nextObject ≤ objects.nextObject) :
    Isolated { s.setSpace i { s.space i with
      objects := AddressSpace.replaceObject (mo, os) (s.space i).objects } with objects } := by
  have hne {j r : Nat} (hr : (s.space j).Refers r) : r ≠ os := by
    rintro rfl
    exact hnone j hr
  -- A reference is an old one, or the new one of this address space.
  have hsp := forall_space (P := fun j as => as.Tidy ∧ as.cowKey = (s.space j).cowKey ∧
      ∀ r, as.Refers r → (r = os ∧ j = i) ∨ (r ≠ os ∧ (s.space j).Refers r))
    ⟨(h.tidy i).replace mo (hnone i), rfl, fun r hr => (AddressSpace.refers_replace hr).imp
      (fun hr => ⟨hr, rfl⟩) fun hr => ⟨hne hr, hr⟩⟩
    fun j _ => ⟨h.tidy j, rfl, fun r hr => .inr ⟨hne hr, hr⟩⟩
  refine ⟨fun j => (hsp j).1, fun j => (hsp j).2.1 ▸ h.key j, fun j r hr => ?_,
    fun j r hr => ?_, fun j l r hjl hj hl => ?_⟩
  · rcases (hsp j).2.2 r hr with ⟨rfl, -⟩ | ⟨-, hr⟩
    · exact hlt
    · exact (h.allocated j r hr).trans_le hnext
  · show 0 < (objects.heap r).copyOnWriteOwner ∧ (objects.heap r).copyOnWriteOwner ≤ _
    rw [(hsp j).2.1]
    rcases (hsp j).2.2 r hr with ⟨rfl, rfl⟩ | ⟨hne, hr⟩
    · rw [hos]
      exact ⟨h.key j, le_rfl⟩
    · rw [howner r (h.allocated j r hr) hne]
      exact h.owned j r hr
  · show (objects.heap r).copyOnWriteOwner < _
    rw [(hsp j).2.1]
    rcases (hsp j).2.2 r hj with ⟨rfl, rfl⟩ | ⟨hne, hj⟩
    · rcases (hsp l).2.2 r hl with ⟨-, rfl⟩ | ⟨hne, -⟩
      · exact absurd rfl hjl
      · exact absurd rfl hne
    · rcases (hsp l).2.2 r hl with ⟨rfl, -⟩ | ⟨-, hl⟩
      · exact absurd rfl hne
      · rw [howner r (h.allocated j r hj) hne]
        exact h.shared j l r hjl hj hl

/-- A copy of an address space takes both sides to the next key, which is above
the owners of all their objects. -/
theorem Isolated.copy (hspace : ∀ l, s'.space l = s.space l ∧ l ≠ i ∨ s'.space l = (s.space i).copy)
    (hobjects : s'.objects = s.objects) : s'.Isolated := by
  have howner : s'.owner = s.owner := by
    unfold owner
    rw [hobjects]
  have hcopy : ∀ {l r}, s'.space l = (s.space i).copy →
      (s'.space l).Refers r → (s.space i).Refers r ∧
        s.owner r < (s'.space l).cowKey := by
    intro l r hl hr
    rw [hl] at hr ⊢
    exact ⟨hr, Nat.lt_succ_of_le (h.owned i r hr).2⟩
  refine ⟨fun l => ?_, fun l => ?_, fun l r hr => ?_, fun l r hr => ?_, fun l m r hlm hl hm => ?_⟩
  · rcases hspace l with ⟨heq, -⟩ | heq
    · exact heq ▸ h.tidy l
    · exact heq ▸ ⟨(h.tidy i).ordered, (h.tidy i).distinct⟩
  · rcases hspace l with ⟨heq, -⟩ | heq
    · exact heq ▸ h.key l
    · exact heq ▸ Nat.succ_pos _
  · rw [hobjects]
    rcases hspace l with ⟨heq, -⟩ | heq
    · exact h.allocated l r (heq ▸ hr)
    · exact h.allocated i r (hcopy heq hr).1
  · rw [howner]
    rcases hspace l with ⟨heq, -⟩ | heq
    · rw [heq] at hr ⊢
      exact h.owned l r hr
    · obtain ⟨hri, hlt⟩ := hcopy heq hr
      exact ⟨(h.owned i r hri).1, hlt.le⟩
  · rw [howner]
    rcases hspace l with ⟨heq, hli⟩ | heq
    · rw [heq] at hl ⊢
      rcases hspace m with ⟨heqm, -⟩ | heqm
      · exact h.shared l m r hlm hl (heqm ▸ hm)
      · exact h.shared l i r hli hl (hcopy heqm hm).1
    · exact (hcopy heq hl).2

/-! ## The steps -/

/-- A write goes to an object that no other address space has, and no other
address space changes. -/
theorem writeStep_frame {value : Expr} (heq : s.writeStep opt ctx i mo offset value = .ok s') :
    s'.Isolated ∧ ∀ j ≠ i, s'.space j = s.space j ∧
      ∀ r, (s.space j).Refers r → s'.objects.heap r = s.objects.heap r := by
  unfold writeStep at heq
  obtain ⟨os, hos, heq⟩ := bind_eq_ok.mp heq
  obtain ⟨⟨⟨as', wos⟩, h'⟩, hw, heq⟩ := bind_eq_ok.mp heq
  obtain ⟨obj, hobj, heq⟩ := bind_eq_ok.mp heq
  cases heq
  have hrefers := lookup_refers hos
  have howner := ObjectState.write_owner _ hobj
  rcases getWriteable_yields _ _ _ _ _ hw with ⟨hr, rfl, hkey⟩ | ⟨hr, rfl⟩
  · -- The object is owned: no other address space has it.
    cases hr
    refine ⟨h.store (Function.update_eq_self ..) howner,
      fun j hj => ⟨space_setSpace_of_ne hj, fun r hr => ?_⟩⟩
    · have hne : r ≠ os := by
        rintro rfl
        exact h.exclusive hrefers hkey.symm hj hr
      simp [ObjectHeap.store, hne]
  · -- The copy has a new reference.
    cases hr
    have hnew : ∀ j, ¬(s.space j).Refers s.objects.nextObject := fun j hj =>
      absurd (h.allocated j _ hj) (Nat.lt_irrefl _)
    refine ⟨h.take hnew ?_ ?_ (Nat.lt_succ_self _) (Nat.le_succ _),
      fun j hj => ⟨space_setSpace_of_ne hj, fun r hr => ?_⟩⟩
    · simp only [ObjectHeap.store, ObjectHeap.alloc, update_self]
      rw [howner]
      simp [ObjectHeap.alloc]
    · intro r hr hne
      simp [owner, ObjectHeap.store, ObjectHeap.alloc, hne]
    · have hne : r ≠ s.objects.nextObject := by
        rintro rfl
        exact hnew j hr
      simp [ObjectHeap.store, ObjectHeap.alloc, hne]

theorem readStep_isolated {width : Nat}
    (heq : s.readStep opt ctx i mo offset width = .ok s') : s'.Isolated := by
  unfold readStep at heq
  obtain ⟨os, -, heq⟩ := bind_eq_ok.mp heq
  obtain ⟨⟨r, obj, constArrays⟩, hread, heq⟩ := bind_eq_ok.mp heq
  cases heq
  exact h.store rfl (ObjectState.read_owner _ _ _ hread)

theorem bindStep_isolated (heq : s.bindStep i mo os = .ok s') : s'.Isolated := by
  unfold bindStep at heq
  split at heq
  · next hlt =>
    obtain ⟨⟨as', h'⟩, hbind, heq⟩ := bind_eq_ok.mp heq
    cases heq
    obtain ⟨hown, rfl, rfl⟩ := bindObject_yields _ _ _ _ _ hbind
    -- An object without an owner is in no address space.
    have hnone : ∀ j, ¬(s.space j).Refers os := fun j hj =>
      absurd (h.owned j os hj).1 (by simp [owner, hown])
    refine h.take hnone ?_ ?_ hlt le_rfl
    · simp [ObjectHeap.store]
    · intro r _ hne
      simp [owner, ObjectHeap.store, hne]
  · cases heq

/-- Every step keeps the address spaces apart. -/
theorem step_isolated {st : Step} (heq : s.step opt ctx st = .ok s') : s'.Isolated := by
  cases st with
  | new os =>
    cases heq
    refine h.congr rfl (Nat.le_succ _) fun r hr => ?_
    have hne : r ≠ s.objects.nextObject := Nat.ne_of_lt hr
    simp [owner, ObjectHeap.alloc, hne]
  | copy i =>
    cases of_guard heq
    refine h.copy (i := i) (fun l => ?_) rfl
    by_cases hl : l = s.count
    · exact .inr (hl ▸ space_setSpace_self)
    · by_cases hli : l = i
      · refine .inr ((space_setSpace_of_ne hl).trans ?_)
        exact hli ▸ space_setSpace_self
      · exact .inl ⟨(space_setSpace_of_ne hl).trans (space_setSpace_of_ne hli), hli⟩
  | bind i mo os => exact bindStep_isolated h (of_guard heq)
  | unbind i mo =>
    cases of_guard heq
    refine h.shrink (h.tidy i).unbind rfl ?_
    rintro r ⟨op, hop, rfl⟩
    exact ⟨op, (List.mem_filter.mp hop).1, rfl⟩
  | write i mo offset value => exact (writeStep_frame h (of_guard heq)).1
  | read i mo offset width => exact readStep_isolated h (of_guard heq)

theorem run_isolated {steps : List Step} (heq : s.run opt ctx steps = .ok s') : s'.Isolated :=
  Except.foldlM_keeps (fun _ _ _ hb hstep => step_isolated hb hstep) h heq

end

/-- After any interleaving of copies, binds, unbinds, reads and writes, an
object that two address spaces share is owned by neither, and the next write
through one address space leaves every other one and all its objects as they
are. -/
theorem writes_isolated (constArrayOpt : Bool) (ctx : Context)
    (steps : List Step) (s : Spaces)
    (hrun : initial.run constArrayOpt ctx steps = .ok s) :
    (∀ i j, i ≠ j → ∀ op ∈ (s.space i).objects, ∀ op' ∈ (s.space j).objects,
      op.2 = op'.2 →
        (s.objects.heap op.2).copyOnWriteOwner ≠ (s.space i).cowKey ∧
        (s.objects.heap op.2).copyOnWriteOwner ≠ (s.space j).cowKey) ∧
    ∀ i mo offset value s',
      s.step constArrayOpt ctx (.write i mo offset value) = .ok s' →
      ∀ j ≠ i, s'.space j = s.space j ∧ ∀ op ∈ (s.space j).objects,
        s'.objects.heap op.2 = s.objects.heap op.2 := by
  have h := run_isolated initial_isolated hrun
  refine ⟨fun i j hij op hop op' hop' heq => ⟨?_, ?_⟩, ?_⟩
  · exact (h.shared i j op.2 hij ⟨op, hop, rfl⟩ ⟨op', hop', heq.symm⟩).ne
  · exact (h.shared j i op.2 hij.symm ⟨op', hop', heq.symm⟩ ⟨op, hop, rfl⟩).ne
  · intro i mo offset value s' heq j hj
    obtain ⟨hspace, hheap⟩ := (writeStep_frame h (of_guard heq)).2 j hj
    exact ⟨hspace, fun op hop => hheap op.2 ⟨op, hop, rfl⟩⟩

/-- An object is bound, the address space is copied, and the first copy writes. -/
theorem writes_isolated_four :
    let mo : MemoryObject := ⟨0, 4096, 4, by decide, by decide⟩
    let steps : List Step := [.new (.ofObject true mo 0), .bind 0 mo 0, .copy 0,
      .write 0 mo (.const 1 64) (.const 5 8)]
    ∃ s, initial.run true ⟨64, true⟩ steps = .ok s ∧
      (s.space 0).objects = [(mo, 1)] ∧ (s.space 1).objects = [(mo, 0)] ∧
      ∀ i mo offset value s',
        s.step true ⟨64, true⟩ (.write i mo offset value) = .ok s' →
        ∀ j ≠ i, s'.space j = s.space j ∧ ∀ op ∈ (s.space j).objects,
          s'.objects.heap op.2 = s.objects.heap op.2 := by
  intro mo steps
  exact ⟨_, rfl, rfl, rfl, (writes_isolated true ⟨64, true⟩ steps _ rfl).2⟩

end Spaces

end VitalSE
