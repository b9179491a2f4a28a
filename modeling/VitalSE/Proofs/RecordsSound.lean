import Mathlib.Data.Fintype.Card
import VitalSE.Core.Records

/-!
# What the caches do to scores and rewards

An instruction in `globalUnsafeInstructionSet` is recorded, so that it does not
matter to a reward where the answer comes from. A count in `globalUnsafeBlockMap`
is right as well, but the loop over the blocks of a branch ends with the first
block that has one, and what comes after it is not counted.

The search for the blocks of a branch ends, because a block is pushed only when it is
put into the set of the visited ones, but it gives up where a successor is the
post-dominator and where a block is visited again.
-/

namespace VitalSE.Mcts.Records

variable {I B : Type} (rs : Records I B)

section Rewards

variable [DecidableEq I]

/-- The set after calls with some records and errors. -/
def unsafeSet (calls : List (List I × Nat)) : List I :=
  calls.foldl (fun set call => (rs.getSimulationReward call.1 call.2 set).2) []

theorem countUnsafe_foldl (records : List I) {n : Nat} {set : List I}
    (h : ∀ ii ∈ set, rs.isRecorded ii = true) :
    (records.foldl rs.countUnsafe (n, set)).1 = n + records.countP rs.isRecorded ∧
      ∀ ii ∈ (records.foldl rs.countUnsafe (n, set)).2, rs.isRecorded ii = true := by
  induction records generalizing n set with
  | nil => exact ⟨rfl, h⟩
  | cons ii records ih =>
    rw [List.foldl_cons, List.countP_cons, countUnsafe]
    split
    · next hin =>
      rw [(ih h).1, if_pos (h ii hin)]
      exact ⟨by omega, (ih h).2⟩
    split
    · next hii =>
      have hset : ∀ i ∈ ii :: set, rs.isRecorded i = true := by simpa [hii] using h
      rw [(ih hset).1]
      exact ⟨by omega, (ih hset).2⟩
    · rw [(ih h).1]
      exact ⟨by omega, (ih h).2⟩

theorem unsafeSet_recorded (calls : List (List I × Nat)) :
    ∀ ii ∈ rs.unsafeSet calls, rs.isRecorded ii = true := by
  refine List.foldlRecOn (motive := fun set => ∀ ii ∈ set, rs.isRecorded ii = true)
    calls _ (by simp) fun set h call _ => ?_
  exact (rs.countUnsafe_foldl call.1 h).2

/-- Whatever earlier simulations have put into the set, a reward is the number of
recorded instructions and of errors. -/
theorem getSimulationReward_eq (calls : List (List I × Nat)) (current_records : List I)
    (errorCount : Nat) :
    (rs.getSimulationReward current_records errorCount (rs.unsafeSet calls)).1 =
      current_records.countP rs.isRecorded + errorCount := by
  have h := (rs.countUnsafe_foldl (n := 0) current_records (rs.unsafeSet_recorded calls)).1
  simp [getSimulationReward, h]

end Rewards

section Scores

variable [DecidableEq B]

/-- The map after calls for some branches. -/
def blockMap (calls : List (List B × List B)) : List (B × Nat) :=
  calls.foldl (fun map call => (rs.getExpansionScore call.1 call.2 map).2) []

/-- The recorded operations of all blocks. -/
def branchCount (blocks : List B) : Nat := (blocks.map rs.blockCount).sum

/-- The blocks that have a count when those of a branch have been gone through. -/
def counted (known : List B) : List B → List B
  | [] => known
  | bb :: rest => if bb ∈ known then known else counted (bb :: known) rest

/-- The blocks that have a count after calls for some branches. -/
def countedBlocks (calls : List (List B × List B)) : List B :=
  calls.foldl (fun known call => counted (counted known call.1) call.2) []

/-- The blocks after the first one that has a count, or that came up before. -/
def skipped (known : List B) : List B → List B
  | [] => []
  | bb :: rest => if bb ∈ known then rest else skipped (bb :: known) rest

/-- The map has the counts of the records. -/
def Exact (map : List (B × Nat)) : Prop := ∀ x ∈ map, x.2 = rs.blockCount x.1

theorem countBranch_spec (blocks : List B) {n : Nat} {map : List (B × Nat)} (h : rs.Exact map) :
    (rs.countBranch blocks n map).1 +
        rs.branchCount (skipped (map.map (·.1)) blocks) = n + rs.branchCount blocks ∧
      rs.Exact (rs.countBranch blocks n map).2 ∧
      (rs.countBranch blocks n map).2.map (·.1) = counted (map.map (·.1)) blocks := by
  induction blocks generalizing n map with
  | nil => exact ⟨rfl, h, rfl⟩
  | cons bb rest ih =>
    have hcons : rs.branchCount (bb :: rest) = rs.blockCount bb + rs.branchCount rest :=
      List.sum_cons
    rw [countBranch, skipped, counted, hcons]
    cases hlookup : map.lookup bb with
    | some k =>
      obtain ⟨_, _, rfl, -⟩ := List.lookup_eq_some_iff.mp hlookup
      have hk : k = rs.blockCount bb := h (bb, k) (by simp)
      rw [if_pos (by simp), if_pos (by simp)]
      exact ⟨by dsimp only; omega, h, rfl⟩
    | none =>
      have hnot : bb ∉ map.map (·.1) := by
        rw [List.lookup_eq_none_iff] at hlookup
        grind
      have hmap : rs.Exact ((bb, rs.blockCount bb) :: map) :=
        List.forall_mem_cons.mpr ⟨rfl, h⟩
      rw [if_neg hnot, if_neg hnot]
      obtain ⟨hcount, hexact⟩ := ih (n := n + rs.blockCount bb) hmap
      exact ⟨by rw [List.map_cons] at hcount; dsimp only at hcount ⊢; omega, hexact⟩

theorem blockMap_exact (calls : List (List B × List B)) :
    rs.Exact (rs.blockMap calls) ∧ (rs.blockMap calls).map (·.1) = countedBlocks calls := by
  induction calls using List.reverseRecOn with
  | nil => exact ⟨by simp [blockMap, Exact], rfl⟩
  | append_singleton calls call ih =>
    obtain ⟨hexact, hkeys⟩ := ih
    obtain ⟨-, hleft, hkeys'⟩ := rs.countBranch_spec (n := 0) call.1 hexact
    obtain ⟨-, hright, hkeys''⟩ := rs.countBranch_spec (n := 0) call.2 hleft
    rw [blockMap, countedBlocks, List.foldl_concat, List.foldl_concat]
    exact ⟨hright, by rw [← countedBlocks, ← hkeys, ← hkeys']; exact hkeys''⟩

/-- After any calls the scores are half the numbers of recorded operations just
when no block that is skipped has one. -/
theorem getExpansionScore_iff (calls : List (List B × List B)) (left right : List B) :
    (rs.getExpansionScore left right (rs.blockMap calls)).1 =
        ((1 / 2 * rs.branchCount left, 1 / 2 * rs.branchCount right) : ℚ × ℚ) ↔
      rs.branchCount (skipped (countedBlocks calls) left) = 0 ∧
        rs.branchCount (skipped (counted (countedBlocks calls) left) right) = 0 := by
  obtain ⟨hexact, hkeys⟩ := rs.blockMap_exact calls
  obtain ⟨hl, hmap, hkeys'⟩ := rs.countBranch_spec (n := 0) left hexact
  obtain ⟨hr, -⟩ := rs.countBranch_spec (n := 0) right hmap
  rw [hkeys] at hl hkeys'
  rw [hkeys'] at hr
  have half (a b : Nat) : (1 / 2 * a : ℚ) = 1 / 2 * b ↔ a = b := by simp
  rw [getExpansionScore, Prod.mk.injEq, half, half]
  omega

end Scores

/-- A block without operations, and one with a recorded load. -/
def twoBlocks : Records Unit Bool where
  instruction _ := ⟨some .load, "f", some (1, 1)⟩
  block bb := if bb then [()] else []
  globalRecordingSet := ["LOAD-f_nesCheck-1-1"]

/-- Once the empty block is in the map, the load after it does not count. -/
theorem getExpansionScore_skips_load :
    (twoBlocks.getExpansionScore [false, true] []
        (twoBlocks.blockMap [([false], [])])).1 = (0, 0) ∧
      twoBlocks.branchCount [false, true] = 1 := by
  decide +kernel

end VitalSE.Mcts.Records

namespace VitalSE.Mcts

section

variable {B : Type} {succ : B → List B} {post start tbb bb : B}

/-- `b` is reached from `start` without passing through `post`. -/
def Reaches (succ : B → List B) (post start b : B) : Prop :=
  start ≠ post ∧ Relation.ReflTransGen (fun a b => b ∈ succ a ∧ b ≠ post) start b

/-- What is right of the list for any graph, and what is if no block of the side
branches. -/
structure Lists (succ : B → List B) (post start : B) (br : List B) : Prop where
  nodup : br.Nodup
  reaches : ∀ b ∈ br, Reaches succ post start b
  complete : (∀ b, Reaches succ post start b → (succ b).length ≤ 1) →
    ∀ b, Reaches succ post start b → b ∈ br

theorem Reaches.ne (h : Reaches succ post start bb) : bb ≠ post := by
  obtain ⟨hne, h⟩ := h
  cases h with
  | refl => exact hne
  | tail _ hstep => exact hstep.2

theorem Reaches.next (h : Reaches succ post start tbb) (hmem : bb ∈ succ tbb)
    (hne : bb ≠ post) : Reaches succ post start bb :=
  ⟨h.1, h.2.tail ⟨hmem, hne⟩⟩

theorem Reaches.mem {br : List B} (hstart : start ∈ br)
    (hbr : ∀ a ∈ br, ∀ b ∈ succ a, b ≠ post → b ∈ br) (h : Reaches succ post start bb) :
    bb ∈ br := by
  induction h.2 with
  | refl => exact hstart
  | tail hsteps hstep ih => exact hbr _ (ih ⟨h.1, hsteps⟩) _ hstep.1 hstep.2

namespace BranchSide

variable [DecidableEq B] {side : BranchSide B} {bbs : List B}

/-- What the walk down one side of a branch keeps. -/
structure Within (succ : B → List B) (post start : B) (side : BranchSide B) : Prop where
  start_mem : start ∈ side.br
  nodup : side.br.Nodup
  reaches : ∀ b ∈ side.br, Reaches succ post start b
  stack : ∀ b ∈ side.stack, b ∈ side.br
  set : ∀ b ∈ side.set, b ∈ side.br

/-- A block is pushed only when it is put into the set. -/
theorem addSuccessors_within [Fintype B] (h : Within succ post start side)
    (htbb : Reaches succ post start tbb) (hbbs : ∀ b ∈ bbs, b ∈ succ tbb) :
    Within succ post start (addSuccessors post bbs side) ∧ ((addSuccessors post bbs side).set = ∅ ∨
        (addSuccessors post bbs side).stack.length + 2 * (addSuccessors post bbs side).setᶜ.card ≤
          side.stack.length + 2 * side.setᶜ.card) := by
  induction bbs generalizing side with
  | nil => exact ⟨h, .inr le_rfl⟩
  | cons bb rest ih =>
    obtain ⟨hbb, hrest⟩ := List.forall_mem_cons.mp hbbs
    rw [addSuccessors]
    split
    · exact ⟨{ h with stack := fun b hb => h.stack b (List.mem_of_mem_tail hb) },
        .inr (by simp)⟩
    next hne =>
    have hreach := htbb.next hbb hne
    have hadd : Within succ post start ⟨bb :: side.stack,
        if bb ∈ side.br then side.br else side.br ++ [bb], insert bb side.set⟩ := by
      obtain ⟨hstart, hnodup, hreaches, hstack, hset⟩ := h
      split <;> constructor <;> grind
    dsimp only
    split
    · exact ⟨{ hadd with set := by simp }, .inl rfl⟩
    next hnot =>
    have hcard : (insert bb side.set)ᶜ.card < side.setᶜ.card :=
      Finset.card_lt_card (Finset.compl_ssubset_compl.mpr (Finset.ssubset_insert hnot))
    refine (ih hadd hrest).imp_right (Or.imp_right fun hle => hle.trans ?_)
    simp only [List.length_cons]
    omega

/-- One round where the block does not branch. -/
theorem addSuccessors_followed {br : List B} {set : Finset B} (hone : (succ tbb).length ≤ 1)
    (hset : ∀ b ∈ set, b ∈ br)
    (hbr : ∀ a ∈ br, a ≠ tbb → ∀ b ∈ succ a, b ≠ post → b ∈ br) :
    let side := addSuccessors post (succ tbb) ⟨[], br, set⟩
    side.stack.length ≤ 1 ∧ ∀ a ∈ side.br, side.set = ∅ ∨ a ∉ side.stack →
      ∀ b ∈ succ a, b ≠ post → b ∈ side.br := by
  match hsucc : succ tbb with
  | [] =>
    simp only [addSuccessors]
    grind
  | [s] =>
    have hne := Finset.insert_ne_empty s set
    simp only [addSuccessors]
    split_ifs <;> grind
  | _ :: _ :: _ => simp [hsucc] at hone

theorem blocks_lists [Fintype B] {fuel : Nat} (h : Within succ post start side)
    (hbr : (∀ b, Reaches succ post start b → (succ b).length ≤ 1) →
      side.stack.length ≤ 1 ∧ ∀ a ∈ side.br, a ∉ side.stack → ∀ b ∈ succ a, b ≠ post → b ∈ side.br)
    (hfuel : side.stack.length + 2 * side.setᶜ.card < fuel) :
    ∃ br, blocks succ post fuel side = some br ∧ Lists succ post start br := by
  induction fuel generalizing side with
  | zero => exact absurd hfuel (Nat.not_lt_zero _)
  | succ fuel ih =>
    obtain ⟨stack, br, set⟩ := side
    cases stack with
    | nil =>
      refine ⟨br, rfl, h.nodup, h.reaches, fun hone b hb => ?_⟩
      exact hb.mem h.start_mem fun a ha => (hbr hone).2 a ha List.not_mem_nil
    | cons tbb stack =>
      have hreach := h.reaches tbb (h.stack tbb List.mem_cons_self)
      have hrest : Within succ post start ⟨stack, br, set⟩ :=
        { h with stack := fun b hb => h.stack b (List.mem_cons_of_mem _ hb) }
      obtain ⟨hside, hmeasure⟩ := addSuccessors_within hrest hreach fun _ => id
      have hround (hone : ∀ b, Reaches succ post start b → (succ b).length ≤ 1) :
          let side := addSuccessors post (succ tbb) ⟨stack, br, set⟩
          side.stack.length ≤ 1 ∧ ∀ a ∈ side.br, side.set = ∅ ∨ a ∉ side.stack →
            ∀ b ∈ succ a, b ≠ post → b ∈ side.br := by
        obtain ⟨hlen, hbr⟩ := hbr hone
        obtain rfl : stack = [] := by simpa using hlen
        exact addSuccessors_followed (hone tbb hreach) h.set
          fun a ha hne => hbr a ha (by simpa using hne)
      simp only [blocks, if_neg hreach.ne]
      split
      · next hempty =>
        refine ⟨_, rfl, hside.nodup, hside.reaches, fun hone b hb => ?_⟩
        exact hb.mem hside.start_mem fun a ha => (hround hone).2 a ha (.inl hempty)
      · next hempty =>
        refine ih hside (fun hone => ?_) ?_
        · exact ⟨(hround hone).1, fun a ha hnot => (hround hone).2 a ha (.inr hnot)⟩
        · have := hmeasure.resolve_left hempty
          simp only [List.length_cons] at hfuel this
          omega

theorem blocks_start [Fintype B] (succ : B → List B) (post start : B) {fuel : Nat}
    (hfuel : 1 + 2 * Fintype.card B < fuel) :
    ∃ br, blocks succ post fuel ⟨[start], [start], ∅⟩ = some br ∧ Lists succ post start br := by
  by_cases hne : start = post
  · obtain ⟨fuel, rfl⟩ := Nat.exists_eq_succ_of_ne_zero (Nat.ne_zero_of_lt hfuel)
    exact ⟨[], by simp [blocks, hne], by simp, by simp, fun _ b hb => absurd hne hb.1⟩
  · refine blocks_lists ⟨by simp, by simp, ?_, by simp, by simp⟩ ?_ (by simpa using hfuel)
    · simpa using ⟨hne, .refl⟩
    · simp

end BranchSide

/-- In every finite graph `getBranchBlocks` ends. It lists blocks of the side only, each
once, and all of them if no block of the side branches. -/
theorem getBranchBlocks_lists [Fintype B] [DecidableEq B] (succ : B → List B)
    (nearest_bb_post left_pc_bb right_pc_bb : B) : ∃ n, ∀ fuel > n, ∃ if_then_br if_else_br,
      getBranchBlocks succ nearest_bb_post fuel left_pc_bb right_pc_bb =
        some (if_then_br, if_else_br) ∧
      Lists succ nearest_bb_post left_pc_bb if_then_br ∧
      Lists succ nearest_bb_post right_pc_bb if_else_br := by
  refine ⟨1 + 2 * Fintype.card B, fun fuel hfuel => ?_⟩
  obtain ⟨l, hl, hll⟩ := BranchSide.blocks_start succ nearest_bb_post left_pc_bb hfuel
  obtain ⟨r, hr, hlr⟩ := BranchSide.blocks_start succ nearest_bb_post right_pc_bb hfuel
  exact ⟨l, r, by simp [getBranchBlocks, hl, hr], hll, hlr⟩

/-- Block `0` goes to the post-dominator `2` or to `1`, and both `1` and `3` go to `2`. -/
def nestedBranch : Fin 4 → List (Fin 4)
  | 0 => [2, 1]
  | 1 => [2]
  | 2 => []
  | 3 => [2]

/-- The branch in block `0` is not followed: block `1` is missing. -/
theorem getBranchBlocks_misses_block :
    (∀ b, nestedBranch b = [] ↔ b = 2) ∧
      (∀ fuel, getBranchBlocks nestedBranch 2 (fuel + 1) 0 3 = some ([0], [3])) ∧
      Reaches nestedBranch 2 0 1 :=
  ⟨by decide, fun _ => rfl, by decide, .single (by decide)⟩

end

end VitalSE.Mcts
