import VitalSE.Lib.Runs
import VitalSE.Solver.STPBuilder
import VitalSE.Solver.Z3Builder

/-!
# The names of solver arrays

A builder declares an array under its own name followed by the number of arrays
that are declared already. There is nothing between the two, so the array `a1` as
the first one and the array `a` as the eleventh are both `a10`. Two arrays get the
same name exactly if the earlier one's name is the later one's name and the first
digits of the later one's number, and what is left of that number is the earlier
one's.
-/

namespace VitalSE

variable {i j : Nat}

open Smt

/-! ## A name and a number -/

theorem toList_toString (n : Nat) : (toString n).toList = Nat.toDigits 10 n := by
  rw [Nat.toString_eq_ofList_toDigits, String.toList_ofList]

theorem length_toDigits_mono (h : i ≤ j) :
    (Nat.toDigits 10 i).length ≤ (Nat.toDigits 10 j).length := by
  refine (Nat.length_toDigits_le_iff (by decide) Nat.length_toDigits_pos).mpr
    (lt_of_le_of_lt h ?_)
  exact (Nat.length_toDigits_le_iff (by decide) Nat.length_toDigits_pos).mp le_rfl

theorem append_toString_eq_iff {a c : String} (h : i < j) : a ++ toString i = c ++ toString j ↔
      ∃ p, toString j = p ++ toString i ∧ a = c ++ p := by
  refine ⟨fun heq => ?_, fun ⟨p, hj, ha⟩ => by rw [ha, hj, String.append_assoc]⟩
  replace heq := congrArg String.toList heq
  rw [String.toList_append, String.toList_append] at heq
  obtain ⟨p, hc, hi⟩ | ⟨p, ha, hj⟩ := List.append_eq_append_iff.mp heq
  · -- The number of the later array is not shorter, so the numbers would be the same.
    have hlen := congrArg List.length hi
    rw [List.length_append, toList_toString, toList_toString] at hlen
    have hmono := length_toDigits_mono h.le
    have hnil : p = [] := List.eq_nil_of_length_eq_zero (by omega)
    rw [hnil, List.nil_append, toList_toString, toList_toString] at hi
    have hsame := congrArg (Nat.ofDigitChars 10 · 0) hi
    simp only [Nat.ofDigitChars_ten_toDigits] at hsame
    exact absurd hsame h.ne
  · refine ⟨String.ofList p, ?_⟩
    simp only [← String.toList_inj, String.toList_append, String.toList_ofList]
    exact ⟨hj, ha⟩

/-! ## What a builder keeps -/

/-- The name of the variable under the writes of an array term. -/
def arrayName : Term → Option String
  | .arrayVar name _ _ => some name
  | .write array _ _ => arrayName array
  | _ => none

/-- Every array is declared once, and under its name and its number. -/
structure Named (st : BuilderState) : Prop where
  nodup : (st.arrays.map Prod.fst).Nodup
  name : ∀ {k : Nat} {root : Array} {t : Term}, st.arrays[k]? = some (root, t) →
    arrayName t = some (root.name ++ toString k)

/-- The names stay as they should be. -/
def KeepsNames (st st' : BuilderState) : Prop := Named st → Named st'

instance : Std.Refl KeepsNames := ⟨fun _ h => h⟩

instance : IsTrans BuilderState KeepsNames := ⟨fun _ _ _ h h' hst => h' (h hst)⟩

theorem Named.declare {st st' : BuilderState} {root : Array} {t : Term} (h : Named st)
    (hnone : st.arrays.lookup root = none)
    (hname : arrayName t = some (root.name ++ toString st.arrays.length))
    (harrays : st'.arrays = st.arrays ++ [(root, t)]) : Named st' := by
  refine ⟨?_, fun {k root' t'} hk => ?_⟩
  · rw [harrays, List.map_append]
    refine List.nodup_append.mpr ⟨h.nodup, List.nodup_singleton root, ?_⟩
    intro r hr r' hr' hsame
    obtain ⟨entry, hentry, rfl⟩ := List.mem_map.mp hr
    have hdiffers := List.lookup_eq_none_iff.mp hnone entry hentry
    exact bne_iff_ne.mp hdiffers ((hsame.trans (List.mem_singleton.mp hr')).symm)
  · rw [harrays] at hk
    by_cases hlt : k < st.arrays.length
    · rw [List.getElem?_append_left hlt] at hk
      exact h.name hk
    · rw [List.getElem?_append_right (Nat.le_of_not_lt hlt), List.getElem?_singleton] at hk
      split at hk
      case isTrue hzero =>
        cases hk
        rw [hname, show k = st.arrays.length by omega]
      case isFalse => cases hk

namespace Builder

/-- A constant array is filled without declaring an array. -/
def FillsArrays (b : Builder) : Prop :=
  ∀ root t st, Yields (b.constantArray root t) st fun t' st' =>
    arrayName t' = arrayName t ∧ st'.arrays = st.arrays

variable {b : Builder}

section

variable {left right : Kid} {kind : BinaryKind} {l r : Expr} {op : BvOp} {width : Nat}

section

variable (h : Keeps KeepsNames left)

include h

theorem constructExtract_keeps {offset : Nat} :
    Keeps KeepsNames (constructExtract offset width left) := by
  refine .bind h fun ⟨src, _⟩ => ?_
  dsimp only
  split <;> exact .pure

theorem constructZExt_keeps : Keeps KeepsNames (constructZExt b width left) := by
  refine .bind h fun ⟨src, srcWidth⟩ => ?_
  dsimp only
  split
  · exact .pure
  · exact .bind .liftM fun _ => .pure

theorem constructSExt_keeps : Keeps KeepsNames (constructSExt b width left) := by
  refine .bind h fun ⟨src, srcWidth⟩ => ?_
  dsimp only
  split
  · exact .pure
  · exact .bind .liftM fun _ => .pure

theorem constructNot_keeps : Keeps KeepsNames (constructNot left) := by
  refine .bind h fun ⟨expr, width⟩ => ?_
  dsimp only
  split <;> exact .pure

end

variable (hleft : Keeps KeepsNames left) (hright : Keeps KeepsNames right)

include hleft hright

theorem constructArith_keeps : Keeps KeepsNames (constructArith b kind op left right) := by
  refine .bind hleft fun _ => .bind hright fun _ => .bind .liftM fun _ => ?_
  exact .bind .liftM fun _ => .pure

theorem constructMul_keeps : Keeps KeepsNames (constructMul b l left right) := by
  refine .bind hright fun ⟨r, width⟩ => .bind .liftM fun _ => ?_
  dsimp only
  split
  · split
    · exact .bind .liftM fun _ => .pure
    · exact .bind hleft fun _ => .bind .liftM fun _ => .pure
  · exact .bind hleft fun _ => .bind .liftM fun _ => .pure

theorem constructDiv_keeps : Keeps KeepsNames (constructDiv b kind op r left right) := by
  refine .bind hleft fun ⟨l, width⟩ => .bind .liftM fun _ => ?_
  dsimp only
  split
  · split
    · exact .bind .liftM fun _ => .pure
    · exact .bind hright fun _ => .bind .liftM fun _ => .pure
  · exact .bind hright fun _ => .bind .liftM fun _ => .pure

theorem constructBitwise_keeps {connective : Term → Term → Term} :
    Keeps KeepsNames (constructBitwise connective op left right) := by
  refine .bind hleft fun _ => .bind hright fun ⟨_, width⟩ => ?_
  dsimp only
  split <;> exact .pure

theorem constructShift_keeps {byAmount : Term → Nat → Nat → Term}
    {byTerm : Term → Term → Except String Term} :
    Keeps KeepsNames (constructShift kind byAmount byTerm r left right) := by
  refine .bind hleft fun ⟨l, width⟩ => .bind .liftM fun _ => ?_
  dsimp only
  split
  · exact .pure
  · exact .bind hright fun _ => .bind .liftM fun _ => .pure

theorem constructBinary_keeps : Keeps KeepsNames (constructBinary b kind l r left right) := by
  unfold constructBinary
  cases kind with
  | add | sub | srem => exact constructArith_keeps hleft hright
  | mul => exact constructMul_keeps hleft hright
  | udiv | sdiv | urem => exact constructDiv_keeps hleft hright
  | and | or | xor => exact constructBitwise_keeps hleft hright
  | shl | lshr | ashr => exact constructShift_keeps hleft hright

theorem constructEq_keeps : Keeps KeepsNames (constructEq b l left right) := by
  refine .bind hleft fun _ => .bind hright fun ⟨_, width⟩ => ?_
  dsimp only
  split
  · split
    · split <;> exact .pure
    · exact .bind .liftM fun _ => .pure
  · exact .pure

theorem constructOrder_keeps {kind : CmpKind} {op : BvCmp} :
    Keeps KeepsNames (constructOrder kind op left right) :=
  .bind hleft fun _ => .bind hright fun _ => .bind .liftM fun _ => .pure

theorem constructCmp_keeps {kind : CmpKind} :
    Keeps KeepsNames (constructCmp b kind l left right) := by
  cases kind with
  | eq => exact constructEq_keeps hleft hright
  | ult | ule | slt | sle => exact constructOrder_keeps hleft hright
  | ne | ugt | uge | sgt | sge => exact .throw

end

theorem cached_keeps {e : Expr} {constructActual : Kid} (h : Keeps KeepsNames constructActual) :
    Keeps KeepsNames (cached b e constructActual) := by
  unfold cached
  split
  · exact h
  · refine .bind .get fun st => ?_
    split
    · exact .pure
    · exact .bind h fun _ => .bind (.modify fun _ hst => ⟨hst.nodup, hst.name⟩) fun _ => .pure

theorem getInitialArray_keeps (hb : b.FillsArrays) (root : Array) :
    Keeps KeepsNames (getInitialArray b root) := by
  intro st
  refine .get_bind ?_
  dsimp only
  split
  case h_1 => exact .pure id
  case h_2 hnone =>
    refine .get_bind ?_
    split
    · refine (hb root _ st).bind fun t st1 ⟨hname, harrays⟩ => ?_
      intro _ st' heq hst
      cases heq
      refine hst.declare hnone hname ?_
      rw [← harrays]
    · intro _ st' heq hst
      cases heq
      exact hst.declare hnone rfl rfl

mutual

theorem construct_keeps (hb : b.FillsArrays) : (e : Expr) → Keeps KeepsNames (b.construct e)
  | .constant c => by
    rw [construct]
    exact cached_keeps .pure
  | .notOptimized src => by
    rw [construct]
    exact cached_keeps (construct_keeps hb src)
  | .read root head index => by
    rw [construct]
    exact cached_keeps (.bind (getArrayForUpdate_keeps hb root head) fun _ =>
      .bind (construct_keeps hb index) fun _ => .pure)
  | .select c t f => by
    rw [construct]
    exact cached_keeps (.bind (construct_keeps hb c) fun _ =>
      .bind (construct_keeps hb t) fun _ => .bind (construct_keeps hb f) fun _ => .pure)
  | .concat l r => by
    rw [construct]
    exact cached_keeps (.bind (construct_keeps hb r) fun _ =>
      .bind (construct_keeps hb l) fun _ => .pure)
  | .extract expr offset width => by
    rw [construct]
    exact cached_keeps (constructExtract_keeps (construct_keeps hb expr))
  | .zext src width => by
    rw [construct]
    exact cached_keeps (constructZExt_keeps (construct_keeps hb src))
  | .sext src width => by
    rw [construct]
    exact cached_keeps (constructSExt_keeps (construct_keeps hb src))
  | .not expr => by
    rw [construct]
    exact cached_keeps (constructNot_keeps (construct_keeps hb expr))
  | .binary kind l r => by
    rw [construct]
    exact cached_keeps (constructBinary_keeps (construct_keeps hb l) (construct_keeps hb r))
  | .cmp kind l r => by
    rw [construct]
    exact cached_keeps (constructCmp_keeps (construct_keeps hb l) (construct_keeps hb r))

theorem getArrayForUpdate_keeps (hb : b.FillsArrays) (root : Array) :
    (un : UpdateNode) → Keeps KeepsNames (b.getArrayForUpdate root un)
  | .null => by
    rw [getArrayForUpdate]
    exact getInitialArray_keeps hb root
  | .node next index value => by
    rw [getArrayForUpdate]
    refine .bind .get fun st => ?_
    split
    · exact .pure
    · exact .bind (getArrayForUpdate_keeps hb root next) fun _ =>
        .bind (construct_keeps hb index) fun _ => .bind (construct_keeps hb value) fun _ =>
        .bind (.modify fun _ hst => ⟨hst.nodup, hst.name⟩) fun _ => .pure

end

theorem Request.run_keeps (hb : b.FillsArrays) (request : Request) :
    Keeps KeepsNames (request.run b) := by
  cases request with
  | construct autoClear e =>
    refine .bind (.bind (construct_keeps hb e) fun _ => ?_) fun _ => .pure
    dsimp only
    split
    · exact .bind (.modify fun _ hst => ⟨hst.nodup, hst.name⟩) fun _ => .pure
    · exact .pure
  | initialRead root index =>
    exact .bind (.bind (getInitialArray_keeps hb root) fun _ => .pure) fun _ => .pure

end Builder

theorem STPBuilder.fillsArrays (useConstructHash optimizeDivides : Bool) :
    (STPBuilder useConstructHash optimizeDivides).FillsArrays := by
  have hwrite : ∀ values i t,
      arrayName (STPBuilder.writeConstants values i t) = arrayName t := by
    intro values
    induction values with
    | nil => intro i t; rfl
    | cons v values ih => intro i t; exact ih (i + 1) _
  intro root t st
  exact .pure ⟨hwrite _ _ _, rfl⟩

theorem Z3Builder.fillsArrays (useConstructHash : Bool) :
    (Z3Builder useConstructHash).FillsArrays := by
  intro root t st
  refine .get_bind ?_
  dsimp only
  split
  · exact .bind (P := fun _ st' => st'.arrays = st.arrays)
      (fun _ st' heq => by cases heq; rfl) fun _ st' h => .pure ⟨rfl, h⟩
  · exact .pure ⟨rfl, rfl⟩

/-- The builder of one of the two solvers. -/
def Builder.OfSolver (b : Builder) : Prop :=
  (∃ useConstructHash optimizeDivides, b = STPBuilder useConstructHash optimizeDivides) ∨
    ∃ useConstructHash, b = Z3Builder useConstructHash

/-- Arrays with the same solver variable are the same. -/
def DistinctNames (st : BuilderState) : Prop :=
  ∀ entry ∈ st.arrays, ∀ entry' ∈ st.arrays, arrayName entry.2 = arrayName entry'.2 →
    entry.1 = entry'.1

/-- The name of an earlier array is that of a later one and the first digits of its number,
and the digits that follow are the number of the earlier one. -/
def Clash (arrays : List Array) : Prop :=
  ∃ (i j : Nat) (a c : Array) (p : String), i < j ∧ arrays[i]? = some a ∧ arrays[j]? = some c ∧
    toString j = p ++ toString i ∧ a.name = c.name ++ p

theorem Builder.OfSolver.fillsArrays {b : Builder} (hb : b.OfSolver) : b.FillsArrays := by
  obtain ⟨useConstructHash, optimizeDivides, rfl⟩ | ⟨useConstructHash, rfl⟩ := hb
  · exact STPBuilder.fillsArrays useConstructHash optimizeDivides
  · exact Z3Builder.fillsArrays useConstructHash

theorem Named.clash {st : BuilderState} (h : Named st) {a c : Array} {t u : Term}
    (hlt : i < j) (hi : st.arrays[i]? = some (a, t)) (hj : st.arrays[j]? = some (c, u)) :
    arrayName t = arrayName u ↔ ∃ p, toString j = p ++ toString i ∧ a.name = c.name ++ p := by
  rw [h.name hi, h.name hj, Option.some.injEq]
  exact append_toString_eq_iff hlt

/-- The arrays that a builder has declared since it was made have different names in the
solver exactly if no two of them clash. -/
theorem distinctNames_iff_not_clash (b : Builder) (hb : b.OfSolver)
    (requests : List Builder.Request) (st : BuilderState)
    (hrun : requests.forM (Builder.Request.run b) .initial = .ok (⟨⟩, st)) :
    DistinctNames st ↔ ¬ Clash (st.arrays.map Prod.fst) := by
  have hnamed : Named st := by
    refine Keeps.forM (fun request _ => request.run_keeps hb.fillsArrays) _ _ _ hrun ?_
    exact ⟨List.nodup_nil, fun hk => by cases hk⟩
  refine ⟨?_, ?_⟩
  · intro hdistinct ⟨i, j, a, c, p, hlt, hi, hj, hp⟩
    have hbound := (List.getElem?_eq_some_iff.mp hi).1
    obtain ⟨⟨a', t⟩, hi', rfl⟩ := Option.map_eq_some_iff.mp (List.getElem?_map .. ▸ hi)
    obtain ⟨⟨c', u⟩, hj', rfl⟩ := Option.map_eq_some_iff.mp (List.getElem?_map .. ▸ hj)
    have hsame := hdistinct _ (List.mem_of_getElem? hi') _ (List.mem_of_getElem? hj')
      ((hnamed.clash hlt hi' hj').mpr ⟨p, hp⟩)
    refine hlt.ne ((List.getElem?_inj hbound hnamed.nodup).mp (hi.trans ?_))
    rw [hj]
    exact congrArg some hsame
  · intro hclash entry hentry entry' hentry' hname
    obtain ⟨i, hi⟩ := List.mem_iff_getElem?.mp hentry
    obtain ⟨j, hj⟩ := List.mem_iff_getElem?.mp hentry'
    have hmap : ∀ {k : Nat} {e : Array × Term}, st.arrays[k]? = some e →
        (st.arrays.map Prod.fst)[k]? = some e.1 := fun hk => by rw [List.getElem?_map, hk]; rfl
    obtain hlt | rfl | hlt := lt_trichotomy i j
    · obtain ⟨p, hp⟩ := (hnamed.clash hlt hi hj).mp hname
      exact absurd ⟨i, j, _, _, p, hlt, hmap hi, hmap hj, hp⟩ hclash
    · rw [hi] at hj
      cases hj
      rfl
    · obtain ⟨p, hp⟩ := (hnamed.clash hlt hj hi).mp hname.symm
      exact absurd ⟨j, i, _, _, p, hlt, hmap hj, hmap hi, hp⟩ hclash

/-- The state of a builder after the initial arrays have been asked for. -/
def initialReads (b : Builder) (arrays : List Array) : Except String (Unit × BuilderState) :=
  (arrays.map fun root => Builder.Request.initialRead root 0).forM (Builder.Request.run b)
    .initial

theorem distinctNames_of_two_arrays : ∃ st,
    initialReads (STPBuilder true true) [.byte 0 "a1", .byte 1 "a"] = .ok (⟨⟩, st) ∧
      DistinctNames st := by
  obtain ⟨st, hrun, hst⟩ := Except.ok_unit_of_any
    (r := initialReads (STPBuilder true true) [.byte 0 "a1", .byte 1 "a"])
    (p := fun st => st.arrays.map Prod.fst = [.byte 0 "a1", .byte 1 "a"])
    (by decide +kernel)
  refine ⟨st, hrun, (distinctNames_iff_not_clash (STPBuilder true true)
    (.inl ⟨true, true, rfl⟩) _ st hrun).mpr ?_⟩
  rw [hst]
  intro ⟨i, j, a, c, p, hlt, hi, hj, hp, _⟩
  have hbound : j < 2 := (List.getElem?_eq_some_iff.mp hj).1
  obtain rfl : j = 1 := by omega
  obtain rfl : i = 0 := by omega
  have hlast := congrArg (fun s => s.toList.getLast?) hp
  rw [String.toList_append, List.getLast?_append, toList_toString, toList_toString] at hlast
  exact absurd (Option.some.inj hlast) (by decide)

/-- Eleven arrays, of which the first and the last one are given the same name. -/
def elevenArrays : List Array :=
  [.byte 0 "a1", .byte 1 "b", .byte 2 "c", .byte 3 "d", .byte 4 "e",
    .byte 5 "f", .byte 6 "g", .byte 7 "h", .byte 8 "i", .byte 9 "j",
    .byte 10 "a"]

instance (st : BuilderState) : Decidable (DistinctNames st) :=
  inferInstanceAs (Decidable (∀ entry ∈ st.arrays, ∀ entry' ∈ st.arrays,
    arrayName entry.2 = arrayName entry'.2 → entry.1 = entry'.1))

theorem not_distinctNames_elevenArrays : ∃ st,
    initialReads (STPBuilder true true) elevenArrays = .ok (⟨⟩, st) ∧ ¬ DistinctNames st :=
  Except.ok_unit_of_any (by decide +kernel)

end VitalSE
