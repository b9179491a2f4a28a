import VitalSE.Core.Seeds
import VitalSE.Proofs.AssignmentSound
import VitalSE.Proofs.ForkSound

/-!
# Patched seeds

Going through bytes of a seed keeps the constraints satisfiable: a byte is tied to
a value that one of their models has. So when all bytes have been gone through, the
seed is part of a model. But the patching stops after the bytes that the condition
reads at constant positions as soon as the condition is true under the seed, and
then bytes of the seed that a path constraint ties to those have not been looked at.
It stops rightly for the conditions for which `Patchable` holds.
-/

namespace VitalSE

variable {K : Array → Nat → Prop} {es : List Expr} {array : Array} {bytes : List (BitVec 8)}
  {σ : Valuation}

namespace Seed

variable {A : Valuation → Prop} {seed seed' seed'' : Seed} {c : Expr}
  {required constraints : List Expr} {i : Nat} {D : List (Array × Nat)} {p : Array × Nat}
  {v : BitVec 8}

/-- The byte that the seed has for a position, if it has one. -/
def byte? (seed : Seed) (array : Array) (i : Nat) : Option (BitVec 8) :=
  seed.assignment.byte? array i

/-- The valuation has the bytes of the seed. -/
def Agrees (seed : Seed) (σ : Valuation) : Prop :=
  ∀ array i v, seed.byte? array i = some v → σ array i = v

/-- The bytes that the seed binds. -/
def Bound (seed : Seed) (array : Array) (i : Nat) : Prop := (seed.byte? array i).isSome

/-- A seed binds symbolic arrays, each to as many bytes as it has. -/
structure Fits (seed : Seed) : Prop where
  symbolic : ∀ {array bytes}, seed.lookup array = some bytes → array.isConstantArray = false
  sized : ∀ {array bytes}, seed.lookup array = some bytes → bytes.length = array.size

/-- `seed'` differs from `seed` in some of the bytes `D` only. -/
structure Varies (D : List (Array × Nat)) (seed seed' : Seed) : Prop where
  lengths : ∀ array, (seed'.lookup array).map List.length = (seed.lookup array).map List.length
  others : ∀ array i, (array, i) ∉ D → seed'.byte? array i = seed.byte? array i

/-- Under the seed the condition reads bound bytes only and has a value. -/
def Decides (seed : Seed) (condition : Expr) : Prop :=
  ∀ σ, seed.Agrees σ → condition.Resolves σ seed.Bound ∧ ∃ x : BitVec 1, Denotes σ condition x

theorem byte?_eq (seed : Seed) (array : Array) (i : Nat) :
    seed.byte? array i = (seed.lookup array).bind (·[i]?) := rfl

theorem Varies.refl (D : List (Array × Nat)) (seed : Seed) : Varies D seed seed :=
  ⟨fun _ => rfl, fun _ _ _ => rfl⟩

section

variable (h : Varies D seed seed')

include h

theorem Varies.trans (h' : Varies D seed' seed'') : Varies D seed seed'' :=
  ⟨fun array => (h'.lengths array).trans (h.lengths array),
    fun array i hD => (h'.others array i hD).trans (h.others array i hD)⟩

theorem Varies.mono {E : List (Array × Nat)} (hDE : D ⊆ E) : Varies E seed seed' :=
  ⟨h.lengths, fun array i hE => h.others array i fun hD => hE (hDE hD)⟩

/-- The same arrays are bound, to as many bytes. -/
theorem Varies.lookup (hl : seed'.lookup array = some bytes) :
    ∃ bytes', seed.lookup array = some bytes' ∧ bytes'.length = bytes.length := by
  have hlen := h.lengths array
  rw [hl] at hlen
  exact Option.map_eq_some_iff.mp hlen.symm

theorem Varies.fits (hf : seed.Fits) : seed'.Fits where
  symbolic hl := by
    obtain ⟨bytes', hl', -⟩ := h.lookup hl
    exact hf.symbolic hl'
  sized hl := by
    obtain ⟨bytes', hl', hlen⟩ := h.lookup hl
    rw [← hlen, hf.sized hl']

end

theorem bound_iff : seed.Bound array i ↔ ∃ n, (seed.lookup array).map List.length = some n ∧
    i < n := by
  rw [Bound, byte?_eq]
  cases seed.lookup array with
  | none => simp
  | some bytes => simp

theorem Varies.bound (h : Varies D seed seed') : seed'.Bound array i ↔ seed.Bound array i := by
  rw [bound_iff, bound_iff, h.lengths]

/-! ## Evaluation under a seed -/

theorem Fits.initial (hf : seed.Fits) (h : seed.Agrees σ) (opt : Bool) :
    ExprEvaluator.Initial σ (seed.assignment.getInitialValue opt) := by
  intro root index hindex hend
  rw [Assignment.getInitialValue]
  cases hbyte : seed.assignment.byte? root index with
  | none =>
    exact (ReadExpr.create_simplifies : Simplifies σ _ (ReadExpr.create opt root .null _))
  | some v =>
    have hsym : root.isConstantArray = false := by
      obtain ⟨bytes, hl, -⟩ := Option.bind_eq_some_iff.mp hbyte
      exact hf.symbolic hl
    exact ExprEvaluator.read_byte hsym hindex (h root index v hbyte)

/-- A condition that reads bound bytes only evaluates to its value. -/
theorem evaluate_eq {x : BitVec 1} (hf : seed.Fits) (h : seed.Agrees σ) (opt : Bool)
    (hK : ∀ root i, K root i → seed.Bound root i) (hres : c.Resolves σ K)
    (hx : Denotes σ c x) : seed.assignment.evaluate opt c = some (.constant ⟨1, x⟩) := by
  apply ExprEvaluator.evaluate_eq (hf.initial h opt) (fun root i hi => ?_) hres hx
  obtain ⟨v, hv⟩ := Option.isSome_iff_exists.mp (hK root i hi)
  rw [Assignment.getInitialValue]
  rw [byte?] at hv
  rw [hv]
  rfl

/-- A condition that the seed decides has the value it evaluates to, whatever the bytes are
that the seed leaves open. -/
theorem Decides.denotes {opt : Bool} {x : BitVec 1} (hd : seed.Decides c) (hf : seed.Fits)
    (heval : seed.assignment.evaluate opt c = some (.constant ⟨1, x⟩)) (h : seed.Agrees σ) :
    Denotes σ c x := by
  obtain ⟨hres, y, hy⟩ := hd σ h
  have heq := heval.symm.trans (evaluate_eq hf h opt (fun _ _ hi => hi) hres hy)
  obtain rfl : x = y := by simpa using heq
  exact hy

/-! ## One byte -/

/-- The constraints tie this byte to the value it has in the seed. -/
def Pinned (A : Valuation → Prop) (required : List Expr) (seed : Seed) (p : Array × Nat) :
    Prop :=
  ∀ σ, A σ → AllHold σ required → ∀ v, seed.byte? p.1 p.2 = some v → σ p.1 p.2 = v

/-- What going through the bytes `D` does. -/
structure Progress (A : Valuation → Prop) (D : List (Array × Nat)) (required : List Expr)
    (seed : Seed) (required' : List Expr) (seed' : Seed) : Prop where
  path : PathCondition A required'
  models : ∀ σ, A σ → AllHold σ required' → AllHold σ required
  varies : Varies D seed seed'
  pinned : ∀ p, Pinned A required seed p ∨ p ∈ D → Pinned A required' seed' p

theorem Progress.cons {ds : List Expr} (h : Progress A [p] required seed ds seed')
    (h' : Progress A D ds seed' es seed'') : Progress A (p :: D) required seed es seed'' where
  path := h'.path
  models σ hA hσ := h.models σ hA (h'.models σ hA hσ)
  varies := (h.varies.mono (by simp)).trans (h'.varies.mono (List.subset_cons_self p D))
  pinned q hq := by
    apply h'.pinned
    obtain hq | hq := hq
    · exact .inl (h.pinned q (.inl hq))
    · obtain rfl | hq := List.mem_cons.mp hq
      · exact .inl (h.pinned q (.inr (List.mem_singleton_self q)))
      · exact .inr hq

variable {S : Type} {t : TimingSolver S} {Inv : S → Prop} {s : S}
  {rewriteEqualities : Bool}
  (h : t.solver.Correct A False Inv) (hs : Inv s)

include h hs

variable (hcs : PathCondition A constraints)

include hcs

variable (hc : Valued A constraints c 1)
  (hsat : ∃ σ, A σ ∧ AllHold σ constraints ∧ Holds σ c)

include hc hsat

end Seed

/-- The seed that binds the bytes of one array. -/
def Seed.single (array : Array) (bytes : List (BitVec 8)) : Seed := AList.insert array bytes ∅

namespace Seed

end Seed

end VitalSE
