import VitalSE.Proofs.ObjectSound
import VitalSE.Proofs.SolverSound
import VitalSE.Solver.Ideal

/-!
# Flushing an object for an external call

`flushToConcreteStore` asks the solver for the bytes that have a symbolic value
in the cache. A byte whose value is only in the updates is not concrete either,
and is left as it was in the concrete store: it has a value that the constraints
permit only if the store happened to hold one.
-/

namespace VitalSE

namespace ObjectState

/-- A byte that the offset has in some model of the constraints. -/
def Takes (A : Valuation → Prop) (cs : List Expr) (f : Valuation → Nat → BitVec 8)
    (i : Nat) (b : BitVec 8) : Prop :=
  ∃ σ, A σ ∧ AllHold σ cs ∧ f σ i = b

/-- The store has permitted bytes for those of the object that are not concrete. -/
def Permits (A : Valuation → Prop) (cs : List Expr) (f : Valuation → Nat → BitVec 8)
    (os : ObjectState) (store : Nat → BitVec 8) : Prop :=
  ∀ i < os.size, os.isByteConcrete i = false → Takes A cs f i (store i)

/-- The bytes with a symbolic value in the cache for which the solver, asked for one
after the other, has no value. -/
def unanswered {S : Type} (t : TimingSolver S) (cs : List Expr) (os : ObjectState) :
    List Nat → S → List Nat
  | [], _ => []
  | i :: is, s =>
    match os.knownSymbolic i with
    | none => unanswered t cs os is s
    | some e =>
      match t.getValue cs e s with
      | .ok (some _, s') => unanswered t cs os is s'
      | .ok (none, s') => i :: unanswered t cs os is s'
      | .error _ => []

/-- What the flush of the offsets `is` does to the concrete store: a byte that is
known symbolic gets a value, unless there was a warning, and all others stay. -/
structure FlushedTo (A : Valuation → Prop) (cs : List Expr) (f : Valuation → Nat → BitVec 8)
    (os : ObjectState) (is warned : List Nat) (store store' : Nat → BitVec 8) : Prop where
  subset : ∀ i ∈ warned, i ∈ is
  value : ∀ i ∈ is, os.isByteKnownSymbolic i → i ∉ warned → Takes A cs f i (store' i)
  same : ∀ i, (i ∈ is → os.isByteKnownSymbolic i → i ∈ warned) → store' i = store i

section

variable {S : Type} {A : Valuation → Prop} {mayFail : Prop} {Inv : S → Prop}
  {t : TimingSolver S} {cs : List Expr} {f : Valuation → Nat → BitVec 8} {os : ObjectState}
  {i id : Nat} {is warned : List Nat} {store store' : Nat → BitVec 8} {s : S}

theorem FlushedTo.skip (h : FlushedTo A cs f os is warned store store')
    (hi : ¬os.isByteKnownSymbolic i) : FlushedTo A cs f os (i :: is) warned store store' where
  subset j hj := List.mem_cons_of_mem i (h.subset j hj)
  value j hj hk := by
    obtain rfl | hj := List.mem_cons.mp hj
    · exact absurd hk hi
    · exact h.value j hj hk
  same j hj := h.same j fun hmem => hj (List.mem_cons_of_mem i hmem)

theorem FlushedTo.warn (h : FlushedTo A cs f os is warned store store') (hi : i ∉ is) :
    FlushedTo A cs f os (i :: is) (i :: warned) store store' where
  subset j hj := by
    obtain rfl | hj := List.mem_cons.mp hj
    · exact List.mem_cons_self
    · exact List.mem_cons_of_mem i (h.subset j hj)
  value j hj hk hw := by
    have hj : j ∈ is := (List.mem_cons.mp hj).resolve_left fun h => hw (h ▸ List.mem_cons_self)
    exact h.value j hj hk fun h' => hw (List.mem_cons_of_mem i h')
  same j hj := by
    refine h.same j fun hmem hk => ?_
    have hne : j ≠ i := fun h => hi (h ▸ hmem)
    exact (List.mem_cons.mp (hj (List.mem_cons_of_mem i hmem) hk)).resolve_left hne

theorem FlushedTo.put {b : BitVec 8}
    (h : FlushedTo A cs f os is warned (Function.update store i b) store') (hi : i ∉ is)
    (hk : os.isByteKnownSymbolic i) (hb : Takes A cs f i b) :
    FlushedTo A cs f os (i :: is) warned store store' where
  subset j hj := List.mem_cons_of_mem i (h.subset j hj)
  value j hj hk hw := by
    obtain rfl | hj := List.mem_cons.mp hj
    · rw [h.same j fun hmem => absurd hmem hi, Function.update_self]
      exact hb
    · exact h.value j hj hk hw
  same j hj := by
    have hne : j ≠ i := by
      intro heq
      subst heq
      exact hi (h.subset j (hj List.mem_cons_self hk))
    rw [h.same j fun hmem => hj (List.mem_cons_of_mem i hmem), Function.update_of_ne hne]

section

variable (h : t.solver.Correct A mayFail Inv) (hcs : PathCondition A cs)
  (hos : os.Holds (fun σ => A σ ∧ AllHold σ cs) f)

include h hcs hos

/-- A value that the solver gives for a cached byte is one that it takes. -/
theorem getValue_takes (hi : i < os.size) {e : Expr} (he : os.knownSymbolic i = some e)
    (hs : Inv s) : Runs (t.getValue cs e) s fun r s' => Inv s' ∧
      Answer mayFail (fun v => Takes A cs f i (v.bits.setWidth 8)) r := by
  have hval : ∀ σ, A σ → AllHold σ cs → Denotes σ e (f σ i) := fun σ hA hσ =>
    (hos.denotes σ ⟨hA, hσ⟩).known i hi e he
  apply (TimingSolver.getValue_runs h hcs (fun σ hA hσ => ⟨_, hval σ hA hσ⟩) hs).imp
  intro r s' ⟨hs', hr⟩
  cases r with
  | none => exact ⟨hs', hr⟩
  | some v =>
    obtain ⟨σ, hA, hσ, hv⟩ := hr
    rw [(hval σ hA hσ).eval_eq] at hv
    obtain rfl := Option.some.inj hv
    exact ⟨hs', σ, hA, hσ, by simp⟩

/-- The loop, from any contents of the concrete store. -/
theorem flushBytes_runs (his : ∀ i ∈ is, i < os.size) (hnodup : is.Nodup) (hs : Inv s) :
    Runs (flushBytes t cs is) (({ os with concreteStore := store }, id), s) fun warned s' =>
      (warned = unanswered t cs os is s ∧ (¬mayFail → warned = [])) ∧
      ∃ store', s'.1.1 = { os with concreteStore := store' } ∧
        FlushedTo A cs f os is warned store store' := by
  induction is generalizing store s with
  | nil => exact .pure ⟨⟨rfl, fun _ => rfl⟩, store, rfl, by simp, by simp, fun _ _ => rfl⟩
  | cons i is ih =>
    obtain ⟨hi, hnodup⟩ := List.nodup_cons.mp hnodup
    have hlt : i < os.size := his i List.mem_cons_self
    have his : ∀ j ∈ is, j < os.size := fun j hj => his j (List.mem_cons_of_mem i hj)
    refine .get_bind ?_
    dsimp only
    split
    · next hk =>
      obtain ⟨e, he⟩ : ∃ e, os.knownSymbolic i = some e := Option.isSome_iff_exists.mp hk
      have hc : os.isByteConcrete i = false := by
        by_contra hc
        have hnone := hos.wf.exclusive i hlt (Bool.eq_true_of_not_eq_false hc)
        exact absurd (hnone.symm.trans he) (by simp)
      have hread : read8 t.constArrayOpt i ({ os with concreteStore := store }, id) =
          .ok (e, { os with concreteStore := store }, id) := by
        replace he :
            ({ os with concreteStore := store } : ObjectState).knownSymbolic i = some e := he
        show (if os.isByteConcrete i then _ else _ : ObjectM Expr) _ = _
        rw [hc, he]
        rfl
      obtain ⟨r, s', hrun, hs', hr⟩ := getValue_takes h hcs hos hlt he hs
      refine .except_bind hread (.except_bind hrun ?_)
      cases r with
      | none =>
        refine .set_bind (.bind (ih his hnodup hs') ?_)
        rintro warned s'' ⟨⟨hw, -⟩, store', heq, hf⟩
        refine .pure ⟨⟨?_, fun hfail => absurd hr hfail⟩, store', heq, hf.warn hi⟩
        simp only [unanswered, he, hrun, hw]
      | some v =>
        refine .set_bind ((ih his hnodup hs').imp ?_)
        rintro warned s'' ⟨⟨hw, hnil⟩, store', heq, hf⟩
        refine ⟨⟨?_, hnil⟩, store', heq, hf.put hi hk hr⟩
        simp only [unanswered, he, hrun, hw]
    · next hk =>
      have hnone : os.knownSymbolic i = none := Option.not_isSome_iff_eq_none.mp hk
      apply (ih his hnodup hs).imp
      rintro warned s' ⟨⟨hw, hnil⟩, store', heq, hf⟩
      refine ⟨⟨?_, hnil⟩, store', heq, hf.skip hk⟩
      simp only [unanswered, hnone, hw]

end

/-- When the flush leaves permitted bytes. -/
theorem FlushedTo.takes_iff
    (h : FlushedTo A cs f os (List.range os.size) warned os.concreteStore store') :
    Permits A cs f os store' ↔ ∀ i < os.size, os.isByteConcrete i = false →
      (os.isByteKnownSymbolic i → i ∈ warned) → Takes A cs f i (os.concreteStore i) := by
  constructor
  · intro ht i hi hc hw
    rw [← h.same i fun _ => hw]
    exact ht i hi hc
  · intro ht i hi hc
    by_cases hw : os.isByteKnownSymbolic i → i ∈ warned
    · rw [h.same i fun _ => hw]
      exact ht i hi hc hw
    · push Not at hw
      exact h.value i (List.mem_range.mpr hi) hw.1 hw.2

end

/-- After any accesses to an object, the bytes that are not concrete have a value
in the concrete store that they take in some model of the constraints exactly if
those that are only in the updates, and those without a value from the solver, had
such a value there before. The flush warns about the latter, and there are none of
them if the solver cannot fail. -/
theorem flushToConcreteStore_iff {S : Type} (A : Valuation → Prop) (mayFail : Prop)
    (Inv : S → Prop) (t : TimingSolver S) (h : t.solver.Correct A mayFail Inv)
    (cs : List Expr) (hcs : PathCondition A cs) (constArrayOpt : Bool) (ctx : Context)
    (os : ObjectState) (init : Valuation → Nat → BitVec 8) (hos : Fresh os init) (id : Nat)
    (as : List Access) (has : ∀ a ∈ as, a.Allowed (fun σ => A σ ∧ AllHold σ cs) os.size)
    (hread : Readable constArrayOpt ctx as (os, id)) (s : S) (hs : Inv s) :
    Runs (accesses constArrayOpt ctx as) (os, id) fun rs object =>
      ∃ f : Valuation → Nat → BitVec 8,
        (∀ σ, A σ → AllHold σ cs → PlainBytes ctx σ as rs (init σ) (f σ)) ∧
        let refused := unanswered t cs object.1 (List.range object.1.size) s
        Runs (flushToConcreteStore t cs) (object, s) fun warned s' =>
          (warned = refused ∧ (¬mayFail → refused = [])) ∧
          (Permits A cs f object.1 s'.1.1.concreteStore ↔
          ∀ i < object.1.size, object.1.isByteConcrete i = false →
            (object.1.isByteKnownSymbolic i → i ∈ refused) →
              Takes A cs f i (object.1.concreteStore i)) := by
  obtain ⟨σ0, hA0, hσ0⟩ := hcs.satisfiable
  apply (accesses_runs ⟨σ0, hA0, hσ0⟩ (hos.holds _) has hread).imp
  intro rs object ⟨_, f, hf, hplain⟩
  refine ⟨f, fun σ hA hσ => hplain σ ⟨hA, hσ⟩, .get_bind ?_⟩
  apply (flushBytes_runs h hcs hf (fun i => List.mem_range.mp) List.nodup_range hs).imp
  rintro warned s' ⟨⟨rfl, hnil⟩, store', heq, hflush⟩
  refine ⟨⟨rfl, hnil⟩, ?_⟩
  rw [heq]
  exact hflush.takes_iff

/-- Four symbolic bytes, the second of which is written with a symbolic value. -/
theorem flushToConcreteStore_iff_four :
    let A : Valuation → Prop := fun _ => True
    let cs : List Expr := [.descending]
    let init : Valuation → Nat → BitVec 8 := fun σ i => (Array.four.initialValue σ i).getD 0
    let as : List Access := [.write (.const 1 64) (.read Array.four .null (.const 0 32))]
    ∃ os, ofArray ⟨0, 4096, 4, by decide, by decide⟩ Array.four = .ok os ∧
      Runs (accesses true ⟨64, true⟩ as) (os, 0) fun rs object =>
        ∃ f : Valuation → Nat → BitVec 8,
          (∀ σ, A σ → AllHold σ cs → PlainBytes ⟨64, true⟩ σ as rs (init σ) (f σ)) ∧
          let t : TimingSolver Unit := ⟨.ideal A, true, true⟩
          let refused := unanswered t cs object.1 (List.range object.1.size) ()
          Runs (flushToConcreteStore t cs) (object, ()) fun warned s' =>
            (warned = refused ∧ (¬False → refused = [])) ∧
            (Permits A cs f object.1 s'.1.1.concreteStore ↔
            ∀ i < object.1.size, object.1.isByteConcrete i = false →
              (object.1.isByteKnownSymbolic i → i ∈ refused) →
                Takes A cs f i (object.1.concreteStore i)) := by
  intro A cs init as
  refine ⟨_, rfl, flushToConcreteStore_iff A False (fun _ => True) ⟨.ideal A, true, true⟩
    (SolverImpl.ideal_correct A) cs pathCondition_descending true ⟨64, true⟩ _ init
    (.ofArray rfl rfl) 0 as ?_ ⟨trivial, fun _ _ _ => trivial⟩ () trivial⟩
  intro a ha
  obtain rfl := List.mem_singleton.mp ha
  refine ⟨by decide, trivial, fun σ _ => ⟨1, ⟨1, denotes_const.mpr ⟨by decide, rfl⟩, rfl⟩,
    by decide⟩, ?_⟩
  rintro σ - _ _ ⟨⟩
  exact ⟨_, denotes_read_four σ (by decide)⟩

/-- With `arr[1] < arr[0]`, the first byte of the array cannot be zero, but a new
symbolic object has zeros in its concrete store, and the flush leaves them there. -/
theorem flushToConcreteStore_leaves_zero :
    ∃ os, ofArray ⟨0, 4096, 4, by decide, by decide⟩ Array.four = .ok os ∧
      os.isByteConcrete 0 = false ∧
      ∀ {S : Type} (t : TimingSolver S) (s : S),
        Runs (flushToConcreteStore t [.descending]) ((os, 0), s) fun warned s' =>
          warned = [] ∧ ¬Takes (fun _ => True) [.descending]
            (fun σ i => (Array.four.initialValue σ i).getD 0) 0 (s'.1.1.concreteStore 0) := by
  refine ⟨_, rfl, by decide, fun t s => ⟨_, _, rfl, rfl, ?_⟩⟩
  rintro ⟨σ, -, hσ, hzero⟩
  have hzero : σ Array.four 0 = 0 := hzero
  have hlt := (hσ _ List.mem_cons_self).unique (denotes_descending σ)
  rw [hzero] at hlt
  exact absurd hlt (by simp [BitVec.ult])

end ObjectState

end VitalSE
