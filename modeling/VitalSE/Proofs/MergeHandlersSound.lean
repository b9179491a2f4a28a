import VitalSE.Core.Merging
import VitalSE.Proofs.DeepeningSound

/-!
# Merge handlers

A handler knows the states that have it on their stack, and has a reference from
each; the states that wait at it are paused. The invariant is about the handlers and
the states together. It is kept when states are let go, when a reference goes away
and with it maybe the handler, and when a state is deleted.
-/

namespace VitalSE.Searchers

open Mcts (SearcherUpdate)
open Function (update update_self update_of_ne)

variable {σ : Type} {m : MergeHandler} {base : Searcher σ} {Inv : σ → Prop}
  {held : σ → Finset StateRef} {y : MergingSearcher σ} {s : StateRef}

/-! ## Putting in and taking out by swapping -/

theorem nodup_snoc {α : Type} {a : α} {l : List α} (ha : a ∉ l) (h : l.Nodup) : (l ++ [a]).Nodup :=
  List.nodup_append_comm.mpr (List.nodup_cons.mpr ⟨ha, h⟩)

theorem swapPop_perm [DecidableEq α] {a : α} {l : List α} (h : a ∈ l) :
    ∃ l', swapPop a l = some l' ∧ l'.Perm (l.erase a) := by
  obtain rfl | ⟨front, back, rfl⟩ := List.eq_nil_or_concat l
  · cases h
  rw [List.concat_eq_append] at h ⊢
  cases hi : (front ++ [back]).idxOf? a with
  | none => exact absurd h (List.idxOf?_eq_none_iff.mp hi)
  | some i =>
    have hlast : (front ++ [back]).getLast? = some back := List.getLast?_concat
    refine ⟨((front ++ [back]).set i back).dropLast, by rw [swapPop, hi, hlast], ?_⟩
    have hlt : i < (front ++ [back]).length := (List.idxOf?_eq_some_iff.mp hi).1
    rw [List.erase_eq_eraseIdx, hi]
    show (((front ++ [back]).set i back).dropLast).Perm ((front ++ [back]).eraseIdx i)
    rw [List.length_append, List.length_singleton] at hlt
    by_cases hfront : i < front.length
    · rw [List.set_append_left _ _ hfront, List.dropLast_concat,
        List.eraseIdx_append_of_lt_length hfront]
      exact (List.set_perm_cons_eraseIdx hfront back).trans (List.perm_append_singleton _ _).symm
    · obtain rfl : i = front.length := by omega
      rw [List.set_append_right _ _ le_rfl, List.eraseIdx_append_of_length_le le_rfl]
      simp

/-! ## The wrapped searcher -/

section

variable {states : Finset StateRef}

theorem fits_removed (h : s ∈ states) : Fits states ⟨none, [], [s]⟩ :=
  ⟨nofun, List.nodup_nil, nofun, List.nodup_singleton s, fun hs => by
    rw [List.mem_singleton.mp hs]
    exact .inl h⟩

theorem fits_added (h : s ∉ states) : Fits states ⟨none, [s], []⟩ :=
  ⟨nofun, List.nodup_singleton s, fun hs => by
    rw [List.mem_singleton.mp hs]
    exact h, List.nodup_nil, nofun⟩

namespace MergingSearcher

/-- The searcher holds the states `states` but the paused ones. -/
structure Exact (Inv : σ → Prop) (held : σ → Finset StateRef) (states : Finset StateRef)
    (y : MergingSearcher σ) : Prop where
  base : Inv y.baseSearcher
  nodup : y.pausedStates.Nodup
  disjoint : ∀ {s}, s ∈ held y.baseSearcher → s ∉ y.pausedStates
  live : ∀ {s}, s ∈ states ↔ s ∈ held y.baseSearcher ∨ s ∈ y.pausedStates

/-- The states `released` are no longer paused. -/
structure Released (released : List StateRef) (y y' : MergingSearcher σ) : Prop where
  paused : ∀ {s}, s ∈ y'.pausedStates ↔ s ∈ y.pausedStates ∧ s ∉ released
  inClose : ∀ {s}, s ∈ y'.inCloseMerge ↔ s ∈ y.inCloseMerge ∧ s ∉ released

variable (now : Now) (hbase : Correct base Inv held) (h : Exact Inv held states y)
include hbase h

theorem pauseState_spec (hs : s ∈ states) (hnot : s ∉ y.pausedStates) :
    ∃ b, y.pauseState base now s = .ok { y with
        pausedStates := y.pausedStates ++ [s], baseSearcher := b } ∧
      Exact Inv held states { y with
        pausedStates := y.pausedStates ++ [s], baseSearcher := b } := by
  have hheld : s ∈ held y.baseSearcher := (h.live.mp hs).resolve_right hnot
  obtain ⟨b, hb, hinv, hrest⟩ := hbase.update now h.base (fits_removed hheld)
  have hmem : ∀ {t}, t ∈ held b ↔ t ∈ held y.baseSearcher ∧ t ≠ s := by
    intro t
    rw [hrest, mem_updated]
    simp
  refine ⟨b, ?_, hinv, ?_, fun {t} ht ht' => ?_, fun {t} => ?_⟩
  · rw [pauseState, if_neg hnot]
    exact Except.bind_eq_ok.mpr ⟨b, hb, rfl⟩
  · exact nodup_snoc hnot h.nodup
  · obtain ⟨ht, hne⟩ := hmem.mp ht
    obtain ht' | ht' := List.mem_append.mp ht'
    · exact h.disjoint ht ht'
    · exact hne (List.mem_singleton.mp ht')
  · rw [h.live, hmem]
    show _ ↔ _ ∨ t ∈ y.pausedStates ++ [s]
    rw [List.mem_append, List.mem_singleton]
    by_cases heq : t = s
    · rw [heq]
      simp [hheld]
    · simp [heq]

theorem continueState_spec (hs : s ∈ y.pausedStates) :
    ∃ b, y.continueState base now s = .ok { y with
        pausedStates := y.pausedStates.erase s, baseSearcher := b } ∧
      Exact Inv held states { y with
        pausedStates := y.pausedStates.erase s, baseSearcher := b } := by
  obtain ⟨b, hb, hinv, hrest⟩ :=
    hbase.update now h.base (fits_added fun hmem => h.disjoint hmem hs)
  have hmem : ∀ {t}, t ∈ held b ↔ t ∈ held y.baseSearcher ∨ t = s := by
    intro t
    rw [hrest, mem_updated]
    simp
  refine ⟨b, ?_, hinv, h.nodup.erase s, fun {t} ht ht' => ?_, fun {t} => ?_⟩
  · rw [continueState, if_pos hs]
    exact Except.bind_eq_ok.mpr ⟨b, hb, rfl⟩
  · obtain ⟨hne, ht'⟩ := h.nodup.mem_erase_iff.mp ht'
    exact (hmem.mp ht).elim (fun ht => h.disjoint ht ht') hne
  · rw [h.live, hmem]
    show _ ↔ _ ∨ t ∈ y.pausedStates.erase s
    rw [h.nodup.mem_erase_iff]
    by_cases heq : t = s
    · rw [heq]
      simp [hs]
    · simp [heq]

theorem releaseAll_spec {l : List StateRef} (hnodup : l.Nodup)
    (hpaused : ∀ s ∈ l, s ∈ y.pausedStates) :
    ∃ y', l.foldlM (release base now) y = .ok y' ∧ Exact Inv held states y' ∧
      y'.mergeGroups = y.mergeGroups ∧ Released l y y' := by
  induction l generalizing y with
  | nil => exact ⟨y, rfl, h, rfl, by simp, by simp⟩
  | cons s rest ih =>
    rw [List.nodup_cons] at hnodup
    obtain ⟨b, hb, h1⟩ := continueState_spec now hbase h (hpaused s List.mem_cons_self)
    have hpaused1 : ∀ {t}, t ∈ y.pausedStates.erase s ↔ t ≠ s ∧ t ∈ y.pausedStates :=
      h.nodup.mem_erase_iff
    obtain ⟨y', hy', hexact, hgroups, hpaused', hinClose⟩ := ih
      (y := { y with pausedStates := y.pausedStates.erase s, baseSearcher := b,
                     inCloseMerge := y.inCloseMerge.erase s })
      ⟨h1.base, h1.nodup, h1.disjoint, h1.live⟩ hnodup.2 fun t ht =>
        hpaused1.mpr ⟨fun heq => hnodup.1 (heq ▸ ht), hpaused t (List.mem_cons_of_mem s ht)⟩
    refine ⟨y', ?_, hexact, hgroups, fun {t} => ?_, fun {t} => ?_⟩
    · rw [List.foldlM_cons]
      exact Except.bind_eq_ok.mpr ⟨_, Except.bind_eq_ok.mpr ⟨_, hb, rfl⟩, hy'⟩
    · rw [hpaused', hpaused1, List.mem_cons]
      tauto
    · rw [hinClose, Finset.mem_erase, List.mem_cons]
      tauto

end MergingSearcher

end

/-! ## Merge handlers -/

namespace MergeHandler

variable {es : StateRef} {mp : MergePoint} {groups : List (MergePoint × List StateRef)}

/-- The merge points that were reached. -/
def keys (m : MergeHandler) : List MergePoint := m.reachedCloseMerge.map Prod.fst

theorem reach_keys (h : m.keys.Nodup) : (m.reach mp es).keys.Nodup := by
  unfold reach
  split
  case h_1 hnone =>
    have hnot : mp ∉ m.keys := by
      intro hmem
      obtain ⟨group, hgroup, rfl⟩ := List.mem_map.mp hmem
      exact absurd (List.lookup_eq_none_iff.mp hnone group hgroup) (by simp)
    unfold keys
    rw [List.map_append]
    exact nodup_snoc hnot h
  case h_2 =>
    have hmap : (m.reachedCloseMerge.map fun group =>
        if group.1 = mp then (group.1, group.2 ++ [es]) else group).map Prod.fst = m.keys := by
      rw [List.map_map]
      refine List.map_congr_left fun group _ => ?_
      show (if group.1 = mp then (group.1, group.2 ++ [es]) else group).1 = group.1
      split <;> rfl
    unfold keys
    rw [hmap]
    exact h

/-- The groups other than that of `mp` stay as they are. -/
theorem map_reach_of_not_mem (h : mp ∉ groups.map Prod.fst) :
    (groups.map fun group => if group.1 = mp then (group.1, group.2 ++ [es]) else group) =
      groups := by
  conv_rhs => rw [← List.map_id groups]
  refine List.map_congr_left fun group hgroup => ?_
  refine if_neg fun (heq : group.1 = mp) => h ?_
  rw [← heq]
  exact List.mem_map_of_mem hgroup

theorem flatMap_reach (hnodup : (groups.map Prod.fst).Nodup)
    (h : mp ∈ groups.map Prod.fst) :
    ((groups.map fun group => if group.1 = mp then (group.1, group.2 ++ [es])
      else group).flatMap Prod.snd).Perm (es :: groups.flatMap Prod.snd) := by
  induction groups with
  | nil => cases h
  | cons group rest ih =>
    rw [List.map_cons, List.nodup_cons] at hnodup
    rw [List.map_cons, List.flatMap_cons, List.flatMap_cons]
    by_cases heq : group.1 = mp
    · rw [if_pos heq, map_reach_of_not_mem (heq ▸ hnodup.1), List.append_assoc]
      exact List.perm_middle
    · have hrest : mp ∈ rest.map Prod.fst :=
        (List.mem_cons.mp h).resolve_left fun h => heq h.symm
      rw [if_neg heq]
      exact ((ih hnodup.2 hrest).append_left group.2).trans List.perm_middle

theorem reach_waiting (h : m.keys.Nodup) : (m.reach mp es).waiting.Perm (es :: m.waiting) := by
  unfold reach
  split
  case h_1 =>
    unfold waiting
    rw [List.flatMap_append]
    exact List.perm_append_singleton es _
  case h_2 group hsome =>
    refine flatMap_reach h ?_
    by_contra hnot
    rw [closePoint, List.lookup_eq_none_iff.mpr fun group hgroup => ?_] at hsome
    · cases hsome
    · refine bne_iff_ne.mpr fun (heq : mp = group.1) => hnot ?_
      rw [heq]
      exact List.mem_map_of_mem hgroup

end MergeHandler

/-! ## The invariant -/

namespace Merging

/-- The state has not been deleted. -/
def Present (x : Merging σ) (s : StateRef) : Prop :=
  s ∈ x.states ∨ s ∈ x.addedStates ∨ s ∈ x.deletedStates

/-- The lists of the executor. -/
structure Lists (x : Merging σ) : Prop where
  added_nodup : x.addedStates.Nodup
  added : ∀ {s}, s ∈ x.addedStates → s ∉ x.states ∧ s ∉ x.deletedStates
  removed_nodup : x.removedStates.Nodup
  removed : ∀ {s}, s ∈ x.removedStates → s ∈ x.states
  deleted_nodup : x.deletedStates.Nodup
  deleted : ∀ {s}, s ∈ x.deletedStates → s ∉ x.states
  current : ∀ {s}, x.current = some s → s ∈ x.states

/-- The handlers and the states `ex` agree. A handler in `debt` has one more
reference than open states; it is about to be given up. -/
structure Handlers (ex : StateRef → Prop) (debt : List HandlerRef) (x : Merging σ) :
    Prop where
  open_iff : ∀ {h m s}, x.mergeHandlers h = some m →
    (s ∈ m.openStates ↔ ex s ∧ h ∈ x.openMergeStack s)
  open_nodup : ∀ {h m}, x.mergeHandlers h = some m → m.openStates.Nodup
  count : ∀ {h m}, x.mergeHandlers h = some m →
    m.refCount = m.openStates.length + debt.count h
  pos : ∀ {h m}, x.mergeHandlers h = some m → 0 < m.refCount
  sorted : ∀ {s}, ex s → (x.openMergeStack s).Pairwise (· < ·)
  alive : ∀ {s h}, ex s → h ∈ x.openMergeStack s → ∃ m, x.mergeHandlers h = some m
  owed : ∀ {h}, h ∈ debt → ∃ m, x.mergeHandlers h = some m
  bound : ∀ {h m}, x.mergeHandlers h = some m → h < x.nextHandler
  groups_nodup : x.mergingSearcher.mergeGroups.Nodup
  groups : ∀ {h}, h ∈ x.mergingSearcher.mergeGroups ↔ ∃ m, x.mergeHandlers h = some m

/-- The states that wait are the paused ones. A state that waits at a merge point of
a handler has left that handler, and those that were opened after it. -/
structure Waits (x : Merging σ) : Prop where
  paused : ∀ {s}, s ∈ x.mergingSearcher.pausedStates ↔
    ∃ h m, x.mergeHandlers h = some m ∧ s ∈ m.waiting
  inClose : ∀ {s}, s ∈ x.mergingSearcher.inCloseMerge ↔ s ∈ x.mergingSearcher.pausedStates
  nodup : ∀ {h m}, x.mergeHandlers h = some m → m.waiting.Nodup
  keys : ∀ {h m}, x.mergeHandlers h = some m → m.keys.Nodup
  unique : ∀ {h m h' m' s}, x.mergeHandlers h = some m → s ∈ m.waiting →
    x.mergeHandlers h' = some m' → s ∈ m'.waiting → h = h'
  inner : ∀ {h m s h'}, x.mergeHandlers h = some m → s ∈ m.waiting →
    h' ∈ x.openMergeStack s → h' < h

/-- The searcher, the lists of the executor and the handlers agree. -/
structure Sound (Inv : σ → Prop) (held : σ → Finset StateRef) (debt : List HandlerRef)
    (x : Merging σ) : Prop where
  exact : x.mergingSearcher.Exact Inv held x.states
  lists : Lists x
  handlers : Handlers x.Present debt x
  waits : Waits x

section

variable {x x' : Merging σ} {now : Now} {h : HandlerRef} {m' : MergeHandler}
  {debt debt' : List HandlerRef} {ex ex' : StateRef → Prop} {α : Type}
  {R : α → Merging σ → Prop} {g : MergeHandler → MergeHandler} {hs : List HandlerRef}
  {f : HandlerRef → Option MergeHandler} {o : Option MergeHandler}

theorem mergeHandler_bind {f : MergeHandler → MergeM σ α} (hm : x.mergeHandlers h = some m)
    (hf : Runs (f m) x R) : Runs (mergeHandler h >>= f) x R := by
  refine Runs.bind_eq (Runs.get_bind ?_) hf
  rw [hm]
  exact Runs.pure ⟨rfl, rfl⟩

theorem onSearcher_spec {f : MergingSearcher σ → Except Abort (MergingSearcher σ)}
    {Q : Unit → Merging σ → Prop} (hf : f x.mergingSearcher = .ok y)
    (hQ : Q ⟨⟩ { x with mergingSearcher := y }) : Runs (onSearcher f) x Q :=
  .get_bind (.except_bind hf ⟨⟨⟩, _, rfl, hQ⟩)

/-- Only the searcher and the handlers have changed. -/
def Within (x x' : Merging σ) : Prop :=
  ∃ y f, x' = { x with mergingSearcher := y, mergeHandlers := f }

theorem Within.trans {x'' : Merging σ} (h : Within x x') (h' : Within x' x'') : Within x x'' := by
  obtain ⟨y, f, rfl⟩ := h
  obtain ⟨y', f', rfl⟩ := h'
  exact ⟨y', f', rfl⟩

/-- The lists are not touched by what is done with the handlers. -/
theorem Lists.keep {n : HandlerRef} {stack : StateRef → List HandlerRef}
    {stepped : StateRef → Nat} (hx : Lists x) :
    Lists { x with
      mergingSearcher := y, mergeHandlers := f, nextHandler := n, openMergeStack := stack,
      steppedInstructions := stepped } :=
  ⟨hx.added_nodup, hx.added, hx.removed_nodup, hx.removed, hx.deleted_nodup, hx.deleted, hx.current⟩

theorem Lists.remove (hx : Lists x) (hs : s ∈ x.states) (hnot : s ∉ x.removedStates) :
    Lists { x with removedStates := x.removedStates ++ [s] } := by
  refine ⟨hx.added_nodup, hx.added, nodup_snoc hnot hx.removed_nodup, fun {t} ht => ?_,
    hx.deleted_nodup, hx.deleted, hx.current⟩
  obtain ht | ht := List.mem_append.mp ht
  · exact hx.removed ht
  · rw [List.mem_singleton.mp ht]
    exact hs

/-- The handlers `hs` have been changed by `g`. -/
def Altered (g : MergeHandler → MergeHandler) (hs : List HandlerRef)
    (f f' : HandlerRef → Option MergeHandler) : Prop :=
  ∀ h, f' h = (f h).map fun m => if h ∈ hs then g m else m

theorem altered_of_eq {f' : HandlerRef → Option MergeHandler} (heq : f' = f) :
    Altered id [] f f' := by
  intro h
  simp [heq]

theorem altered_update (g : MergeHandler → MergeHandler) (hm : f h = some m) :
    Altered g [h] f (update f h (some (g m))) := by
  intro h'
  by_cases heq : h' = h
  · rw [heq, update_self, hm]
    simp
  · rw [update_of_ne heq]
    simp [heq]

/-! ### One handler -/

/-- What the invariant says of one handler. -/
structure Handled (ex : StateRef → Prop) (debt : List HandlerRef) (x : Merging σ)
    (h : HandlerRef) (m : MergeHandler) : Prop where
  open_iff : ∀ {s}, s ∈ m.openStates ↔ ex s ∧ h ∈ x.openMergeStack s
  open_nodup : m.openStates.Nodup
  count : m.refCount = m.openStates.length + debt.count h
  pos : 0 < m.refCount
  bound : h < x.nextHandler

theorem Handlers.handled (hx : Handlers ex debt x) (hm : x.mergeHandlers h = some m) :
    Handled ex debt x h m :=
  ⟨hx.open_iff hm, hx.open_nodup hm, hx.count hm, hx.pos hm, hx.bound hm⟩

/-- The open states and the references of a handler. -/
def core (m : MergeHandler) : List StateRef × Nat := (m.openStates, m.refCount)

/-- What is said of a handler depends on its core, on what is owed to it and on the states
that have it on their stack. -/
theorem Handled.congr (hm : Handled ex debt x h m) (hcore : core m' = core m)
    (hcount : debt'.count h = debt.count h)
    (hstack : ∀ {s}, ex' s ∧ h ∈ x'.openMergeStack s ↔ ex s ∧ h ∈ x.openMergeStack s)
    (hnext : x.nextHandler ≤ x'.nextHandler) : Handled ex' debt' x' h m' := by
  obtain ⟨hopen, href⟩ := Prod.mk.inj hcore
  refine ⟨fun {s} => ?_, ?_, ?_, ?_, hm.bound.trans_le hnext⟩
  · rw [hopen, hm.open_iff, hstack]
  · rw [hopen]
    exact hm.open_nodup
  · rw [hopen, href, hcount]
    exact hm.count
  · rw [href]
    exact hm.pos

/-- The handlers, one by one, and what the states and the searcher know of them. -/
theorem Handlers.of_handled (hhandled : ∀ {h m}, x.mergeHandlers h = some m → Handled ex debt x h m)
    (hsorted : ∀ {s}, ex s → (x.openMergeStack s).Pairwise (· < ·))
    (halive : ∀ {s h}, ex s → h ∈ x.openMergeStack s → ∃ m, x.mergeHandlers h = some m)
    (howed : ∀ {h}, h ∈ debt → ∃ m, x.mergeHandlers h = some m)
    (hnodup : x.mergingSearcher.mergeGroups.Nodup)
    (hgroups : ∀ {h}, h ∈ x.mergingSearcher.mergeGroups ↔ ∃ m, x.mergeHandlers h = some m) :
    Handlers ex debt x :=
  ⟨fun hm => (hhandled hm).open_iff, fun hm => (hhandled hm).open_nodup,
    fun hm => (hhandled hm).count, fun hm => (hhandled hm).pos, hsorted, halive, howed,
    fun hm => (hhandled hm).bound, hnodup, hgroups⟩

section

variable (hx : Handlers ex debt x) (hf : Altered g hs x.mergeHandlers x'.mergeHandlers)

include hx hf

/-- No handler is made or deleted. -/
theorem Handlers.alter (hgroups : x'.mergingSearcher.mergeGroups = x.mergingSearcher.mergeGroups)
    (hin : ∀ {h m}, h ∈ hs → x.mergeHandlers h = some m → Handled ex' debt' x' h (g m))
    (hout : ∀ {h m}, h ∉ hs → x.mergeHandlers h = some m → Handled ex' debt' x' h m)
    (hsorted : ∀ {s}, ex' s → (x'.openMergeStack s).Pairwise (· < ·))
    (halive : ∀ {s h}, ex' s → h ∈ x'.openMergeStack s → ∃ m, x.mergeHandlers h = some m)
    (howed : ∀ {h}, h ∈ debt' → ∃ m, x.mergeHandlers h = some m) : Handlers ex' debt' x' := by
  have hsome : ∀ {h}, (∃ m, x.mergeHandlers h = some m) ↔ ∃ m, x'.mergeHandlers h = some m := by
    intro h
    rw [hf, ← Option.isSome_iff_exists, ← Option.isSome_iff_exists, Option.isSome_map]
  refine .of_handled ?_ hsorted (fun hs hmem => hsome.mp (halive hs hmem))
    (fun hmem => hsome.mp (howed hmem)) (hgroups ▸ hx.groups_nodup)
    (hgroups ▸ hx.groups.trans hsome)
  intro h m' hm'
  rw [hf] at hm'
  obtain ⟨m, hm, rfl⟩ := Option.map_eq_some_iff.mp hm'
  split
  case isTrue hmem => exact hin hmem hm
  case isFalse hmem => exact hout hmem hm

/-- What the invariant of the handlers reads. -/
theorem Handlers.congr (hcore : ∀ m, core (g m) = core m)
    (hstack : x'.openMergeStack = x.openMergeStack) (hnext : x'.nextHandler = x.nextHandler)
    (hgroups : x'.mergingSearcher.mergeGroups = x.mergingSearcher.mergeGroups)
    (hex : ∀ t, ex' t ↔ ex t) : Handlers ex' debt x' := by
  have hsame : ∀ {s h}, ex' s ∧ h ∈ x'.openMergeStack s ↔ ex s ∧ h ∈ x.openMergeStack s := by
    intro s h
    rw [hex, hstack]
  refine hx.alter hf hgroups (fun _ hm => (hx.handled hm).congr (hcore _) rfl hsame hnext.ge)
    (fun _ hm => (hx.handled hm).congr rfl rfl hsame hnext.ge) (fun {s} hs => ?_) ?_ hx.owed
  · rw [hstack]
    exact hx.sorted ((hex s).mp hs)
  · intro s h hs hmem
    obtain ⟨hs, hmem⟩ := hsame.mp ⟨hs, hmem⟩
    exact hx.alive hs hmem

end

theorem Handlers.of_eq (hx : Handlers ex debt x) (hhandlers : x'.mergeHandlers = x.mergeHandlers)
    (hstack : x'.openMergeStack = x.openMergeStack) (hnext : x'.nextHandler = x.nextHandler)
    (hgroups : x'.mergingSearcher.mergeGroups = x.mergingSearcher.mergeGroups)
    (hex : ∀ t, ex' t ↔ ex t) : Handlers ex' debt x' :=
  hx.congr (altered_of_eq hhandlers) (fun _ => rfl) hstack hnext hgroups hex

/-! ### The states that wait -/

/-- The state waits at a merge point of the handler. -/
def WaitsAt (x : Merging σ) (h : HandlerRef) (s : StateRef) : Prop :=
  ∃ m, x.mergeHandlers h = some m ∧ s ∈ m.waiting

section

variable (hx : Waits x)

include hx

theorem Waits.waitsAt_unique {h' : HandlerRef} (hs : x.WaitsAt h s) (hs' : x.WaitsAt h' s) :
    h = h' := by
  obtain ⟨m, hm, hs⟩ := hs
  obtain ⟨m', hm', hs'⟩ := hs'
  exact hx.unique hm hs hm' hs'

variable (hstack : ∀ {t h}, t ∈ x.mergingSearcher.pausedStates → h ∈ x'.openMergeStack t →
  h ∈ x.openMergeStack t)

include hstack

/-- No state begins to wait. -/
theorem Waits.fewer (hat : ∀ {h s}, x'.WaitsAt h s → x.WaitsAt h s)
    (hpaused : ∀ {s}, s ∈ x'.mergingSearcher.pausedStates ↔ ∃ h, x'.WaitsAt h s)
    (hinClose : ∀ {s}, s ∈ x'.mergingSearcher.inCloseMerge ↔ s ∈ x'.mergingSearcher.pausedStates)
    (hnodup : ∀ {h m}, x'.mergeHandlers h = some m → m.waiting.Nodup ∧ m.keys.Nodup) :
    Waits x' := by
  refine ⟨hpaused, hinClose, fun hm => (hnodup hm).1, fun hm => (hnodup hm).2, ?_, ?_⟩
  · intro h m h' m' s hm hs hm' hs'
    exact hx.waitsAt_unique (hat ⟨m, hm, hs⟩) (hat ⟨m', hm', hs'⟩)
  · intro h m' s h' hm' hs hmem
    obtain ⟨m, hm, hs⟩ := hat ⟨m', hm', hs⟩
    exact hx.inner hm hs (hstack (hx.paused.mpr ⟨h, m, hm, hs⟩) hmem)

/-- What the invariant of the waiting states reads. -/
theorem Waits.congr (hf : Altered g hs x.mergeHandlers x'.mergeHandlers)
    (hreached : ∀ {h m}, h ∈ hs → x.mergeHandlers h = some m →
      (g m).reachedCloseMerge = m.reachedCloseMerge)
    (hpaused : x'.mergingSearcher.pausedStates = x.mergingSearcher.pausedStates)
    (hinClose : x'.mergingSearcher.inCloseMerge = x.mergingSearcher.inCloseMerge) : Waits x' := by
  have hwas : ∀ {h m'}, x'.mergeHandlers h = some m' → ∃ m, x.mergeHandlers h = some m ∧
      m'.reachedCloseMerge = m.reachedCloseMerge := by
    intro h m' hm'
    rw [hf] at hm'
    obtain ⟨m, hm, rfl⟩ := Option.map_eq_some_iff.mp hm'
    refine ⟨m, hm, ?_⟩
    split
    case isTrue hmem => exact hreached hmem hm
    case isFalse => rfl
  have hat : ∀ {h s}, x'.WaitsAt h s ↔ x.WaitsAt h s := by
    intro h s
    refine ⟨fun ⟨m', hm', hs⟩ => ?_, fun ⟨m, hm, hs⟩ => ?_⟩
    · obtain ⟨m, hm, heq⟩ := hwas hm'
      rw [MergeHandler.waiting, heq] at hs
      exact ⟨m, hm, hs⟩
    · have hm' := hf h
      rw [hm] at hm'
      obtain ⟨m0, hm0, heq⟩ := hwas hm'
      rw [hm] at hm0
      cases hm0
      refine ⟨_, hm', ?_⟩
      rw [MergeHandler.waiting, heq]
      exact hs
  refine hx.fewer hstack hat.mp (fun {s} => ?_) (fun {s} => ?_) (fun hm' => ?_)
  · rw [hpaused, hx.paused]
    exact exists_congr fun h => hat.symm
  · rw [hpaused, hinClose, hx.inClose]
  · obtain ⟨m, hm, heq⟩ := hwas hm'
    rw [MergeHandler.waiting, MergeHandler.keys, heq]
    exact ⟨hx.nodup hm, hx.keys hm⟩

/-- No state waits at the handler any more. -/
theorem Waits.clear (hpaused : ∀ {s}, s ∈ x'.mergingSearcher.pausedStates ↔
      s ∈ x.mergingSearcher.pausedStates ∧ ¬ x.WaitsAt h s)
    (hinClose : ∀ {s}, s ∈ x'.mergingSearcher.inCloseMerge ↔
      s ∈ x.mergingSearcher.inCloseMerge ∧ ¬ x.WaitsAt h s)
    (hother : ∀ {h'}, h' ≠ h → x'.mergeHandlers h' = x.mergeHandlers h')
    (hself : x'.mergeHandlers h = o) (ho : ∀ m ∈ o, m.reachedCloseMerge = []) : Waits x' := by
  have hnil : ∀ {m}, x'.mergeHandlers h = some m → m.reachedCloseMerge = [] :=
    fun hm => ho _ (hself.symm.trans hm)
  have hat : ∀ {h' s}, x'.WaitsAt h' s ↔ h' ≠ h ∧ x.WaitsAt h' s := by
    intro h' s
    by_cases heq : h' = h
    · refine ⟨fun ⟨m, hm, hs⟩ => ?_, fun hs => absurd heq hs.1⟩
      rw [MergeHandler.waiting, hnil (heq ▸ hm)] at hs
      cases hs
    · unfold WaitsAt
      rw [hother heq]
      exact (and_iff_right heq).symm
  refine hx.fewer hstack (fun hs => (hat.mp hs).2) (fun {s} => hpaused.trans ⟨?_, ?_⟩)
    (fun {s} => ?_) (fun {h' m} hm => ?_)
  · intro ⟨hs, hnot⟩
    obtain ⟨h', hs⟩ := hx.paused.mp hs
    exact ⟨h', hat.mpr ⟨fun heq => hnot (heq ▸ hs), hs⟩⟩
  · intro ⟨h', hs⟩
    obtain ⟨hne, hs⟩ := hat.mp hs
    exact ⟨hx.paused.mpr ⟨h', hs⟩, fun hs' => hne (hx.waitsAt_unique hs hs')⟩
  · rw [hinClose, hpaused, hx.inClose]
  · by_cases heq : h' = h
    · rw [MergeHandler.waiting, MergeHandler.keys, hnil (heq ▸ hm)]
      exact ⟨List.nodup_nil, List.nodup_nil⟩
    · rw [hother heq] at hm
      exact ⟨hx.nodup hm, hx.keys hm⟩

end

theorem Waits.of_eq (hx : Waits x) (hhandlers : x'.mergeHandlers = x.mergeHandlers)
    (hstack : x'.openMergeStack = x.openMergeStack)
    (hpaused : x'.mergingSearcher.pausedStates = x.mergingSearcher.pausedStates)
    (hinClose : x'.mergingSearcher.inCloseMerge = x.mergingSearcher.inCloseMerge) : Waits x' :=
  hx.congr (fun _ hmem => hstack ▸ hmem) (altered_of_eq hhandlers) (fun _ _ => rfl) hpaused hinClose

theorem Waits.released (hx : Waits x) (hm : x.mergeHandlers h = some m)
    (hy : MergingSearcher.Released m.waiting x.mergingSearcher y)
    (hother : ∀ {h'}, h' ≠ h → f h' = x.mergeHandlers h') (hself : f h = o)
    (ho : ∀ m ∈ o, m.reachedCloseMerge = []) :
    Waits { x with mergingSearcher := y, mergeHandlers := f } := by
  have hat : ∀ {s}, x.WaitsAt h s ↔ s ∈ m.waiting := by
    intro s
    refine ⟨fun ⟨m', hm', hs⟩ => ?_, fun hs => ⟨m, hm, hs⟩⟩
    rw [hm] at hm'
    cases hm'
    exact hs
  exact hx.clear (fun _ hmem => hmem) (hy.paused.trans (and_congr_right' (not_congr hat.symm)))
    (hy.inClose.trans (and_congr_right' (not_congr hat.symm))) hother hself ho

/-! ### What is done with a handler -/

/-- A handler that is only referred to by what is about to go is deleted. -/
theorem Handlers.delete (hx : Handlers ex (h :: debt) x) (hm : x.mergeHandlers h = some m)
    (hlast : m.refCount = 1)
    (hgroups : x'.mergingSearcher.mergeGroups.Perm (x.mergingSearcher.mergeGroups.erase h))
    (hother : ∀ {h'}, h' ≠ h → x'.mergeHandlers h' = x.mergeHandlers h')
    (hself : x'.mergeHandlers h = none) (hstack : x'.openMergeStack = x.openMergeStack)
    (hnext : x'.nextHandler = x.nextHandler) : Handlers ex debt x' := by
  have hcount := hx.count hm
  rw [List.count_cons_self] at hcount
  have hopen : m.openStates = [] := List.eq_nil_of_length_eq_zero (by omega)
  have hdebt : h ∉ debt := List.count_eq_zero.mp (by omega)
  have hwas : ∀ {h' m'}, x'.mergeHandlers h' = some m' ↔ h' ≠ h ∧ x.mergeHandlers h' = some m' := by
    intro h' m'
    by_cases heq : h' = h
    · rw [heq, hself]
      simp
    · rw [hother heq]
      exact (and_iff_right heq).symm
  refine .of_handled ?_ (hstack ▸ hx.sorted) ?_ ?_
    (hgroups.nodup_iff.mpr (hx.groups_nodup.erase h)) (fun {h'} => ?_)
  · intro h' m' hm'
    obtain ⟨hne, hm'⟩ := hwas.mp hm'
    exact (hx.handled hm').congr rfl (List.count_cons_of_ne hne.symm).symm
      (by rw [hstack]) hnext.ge
  · intro s h' hs hmem
    rw [hstack] at hmem
    obtain ⟨m', hm'⟩ := hx.alive hs hmem
    refine ⟨m', hwas.mpr ⟨fun heq => ?_, hm'⟩⟩
    have hopens := (hx.open_iff hm).mpr ⟨hs, heq ▸ hmem⟩
    rw [hopen] at hopens
    cases hopens
  · intro h' hmem
    obtain ⟨m', hm'⟩ := hx.owed (List.mem_cons_of_mem h hmem)
    exact ⟨m', hwas.mpr ⟨fun heq => hdebt (heq ▸ hmem), hm'⟩⟩
  · rw [hgroups.mem_iff, hx.groups_nodup.mem_erase_iff, hx.groups]
    simp only [hwas, exists_and_left]

theorem forM_alters {op : HandlerRef → MergeM σ Unit} {Q : MergeHandler → Prop}
    (hop : ∀ {x h m}, x.mergeHandlers h = some m → Q m → Runs (op h) x fun _ x' =>
      x' = { x with mergeHandlers := update x.mergeHandlers h (some (g m)) })
    (hnodup : hs.Nodup) (hQ : ∀ h ∈ hs, ∃ m, x.mergeHandlers h = some m ∧ Q m) :
    Runs (hs.forM op) x fun _ x' => ∃ f,
      x' = { x with mergeHandlers := f } ∧ Altered g hs x.mergeHandlers f := by
  induction hs generalizing x with
  | nil => exact .pure ⟨x.mergeHandlers, rfl, fun h => by simp⟩
  | cons h hs ih =>
    rw [List.nodup_cons] at hnodup
    obtain ⟨m, hm, hQm⟩ := hQ h List.mem_cons_self
    show Runs (op h >>= fun _ => hs.forM op) x _
    refine .bind (hop hm hQm) ?_
    intro _ x1 hx1
    subst hx1
    have hkeep : ∀ {h'}, h' ≠ h →
        update x.mergeHandlers h (some (g m)) h' = x.mergeHandlers h' :=
      fun hne => update_of_ne hne ..
    refine (ih hnodup.2 fun h' hh' => ?_).imp ?_
    · obtain ⟨m', hm', hQm'⟩ := hQ h' (List.mem_cons_of_mem h hh')
      exact ⟨m', (hkeep fun heq => hnodup.1 (heq ▸ hh')).trans hm', hQm'⟩
    intro _ x' ⟨f, hx', hf⟩
    subst hx'
    refine ⟨f, rfl, fun h' => (hf h').trans ?_⟩
    show (update x.mergeHandlers h (some (g m)) h').map _ = _
    by_cases heq : h' = h
    · rw [heq, update_self, hm]
      simp [hnodup.1]
    · rw [hkeep heq]
      simp [heq]

/-- The handler without one of its open states. -/
def dropOpen (s : StateRef) (m : MergeHandler) : MergeHandler :=
  { m with openStates := (swapPop s m.openStates).getD m.openStates }

theorem dropOpen_perm (hs : s ∈ m.openStates) :
    (dropOpen s m).openStates.Perm (m.openStates.erase s) := by
  obtain ⟨l, hl, hperm⟩ := swapPop_perm hs
  unfold dropOpen
  rw [hl]
  exact hperm

theorem removeOpenState_spec (hm : x.mergeHandlers h = some m) (hs : s ∈ m.openStates) :
    Runs (removeOpenState s h) x fun _ x' =>
      x' = { x with
        mergeHandlers := update x.mergeHandlers h (some (dropOpen s m)) } := by
  obtain ⟨l, hl, -⟩ := swapPop_perm hs
  refine mergeHandler_bind hm ?_
  unfold dropOpen
  rw [hl]
  exact ⟨⟨⟩, _, rfl, rfl⟩

/-- What is owed to the handlers that a state has left is its references to them. -/
theorem Handlers.leave (hx : Handlers ex [] x) (hnodup : hs.Nodup)
    (hf : Altered g hs x.mergeHandlers x'.mergeHandlers)
    (hcore : ∀ {h m}, h ∈ hs → x.mergeHandlers h = some m → core (g m) = core (dropOpen s m))
    (hgroups : x'.mergingSearcher.mergeGroups = x.mergingSearcher.mergeGroups)
    (hnext : x'.nextHandler = x.nextHandler)
    (hopen : ∀ h ∈ hs, ex s ∧ h ∈ x.openMergeStack s) (hex : ∀ {t}, ex' t → ex t)
    (hstack : ∀ {t h}, ex' t ∧ h ∈ x'.openMergeStack t ↔
      (ex t ∧ h ∈ x.openMergeStack t) ∧ ¬ (t = s ∧ h ∈ hs))
    (hsorted : ∀ {t}, ex' t → (x'.openMergeStack t).Pairwise (· < ·)) : Handlers ex' hs x' := by
  refine hx.alter hf hgroups ?_ ?_ hsorted
    (fun ht hmem => hx.alive (hex ht) (hstack.mp ⟨ht, hmem⟩).1.2)
    fun {h} hmem => hx.alive (hopen h hmem).1 (hopen h hmem).2
  · intro h m hmem hm
    have hold := hx.handled hm
    have hs := hold.open_iff.mpr (hopen h hmem)
    obtain ⟨heq, href⟩ := Prod.mk.inj (hcore hmem hm)
    have hperm : (g m).openStates.Perm (m.openStates.erase s) := heq ▸ dropOpen_perm hs
    refine ⟨fun {t} => ?_, hperm.nodup_iff.mpr (hold.open_nodup.erase s), ?_, href ▸ hold.pos,
      hnext ▸ hold.bound⟩
    · rw [hstack, ← hold.open_iff, hperm.mem_iff, hold.open_nodup.mem_erase_iff]
      simp [hmem, and_comm]
    · have hlen := List.length_pos_of_mem hs
      rw [hperm.length_eq, List.length_erase_of_mem hs, List.count_eq_one_of_mem hnodup hmem, href]
      refine hold.count.trans ?_
      rw [List.count_nil]
      omega
  · intro h m hmem hm
    refine (hx.handled hm).congr rfl (List.count_eq_zero_of_not_mem hmem) (fun {t} => ?_) hnext.ge
    rw [hstack]
    simp [hmem]

variable (hbase : Correct base Inv held)
include hbase

theorem releaseStates_spec (states : Finset StateRef)
    (hexact : x.mergingSearcher.Exact Inv held states)
    (hm : x.mergeHandlers h = some m) (hnodup : m.waiting.Nodup)
    (hpaused : ∀ s ∈ m.waiting, s ∈ x.mergingSearcher.pausedStates) :
    Runs (releaseStates base now h) x fun _ x' => ∃ y,
      x' = { x with
        mergingSearcher := y
        mergeHandlers := update x.mergeHandlers h
          (some { m with reachedCloseMerge := [] }) } ∧
      y.Exact Inv held states ∧ y.mergeGroups = x.mergingSearcher.mergeGroups ∧
      MergingSearcher.Released m.waiting x.mergingSearcher y := by
  obtain ⟨y, hy, hexact', hgroups, hreleased⟩ :=
    MergingSearcher.releaseAll_spec now hbase hexact hnodup hpaused
  refine mergeHandler_bind hm (.bind (P := fun _ x' => x' = { x with mergingSearcher := y })
    (onSearcher_spec hy rfl) ?_)
  intro _ x' hx'
  rw [hx']
  exact ⟨⟨⟩, _, rfl, y, rfl, hexact', hgroups, hreleased⟩

theorem Sound.releaseStates (hx : Sound Inv held debt x) (hm : x.mergeHandlers h = some m) :
    Runs (releaseStates base now h) x fun _ x' => Sound Inv held debt x' ∧ Within x x' ∧
      x'.mergingSearcher.mergeGroups = x.mergingSearcher.mergeGroups := by
  refine (releaseStates_spec hbase x.states hx.exact hm (hx.waits.nodup hm) fun s hs =>
    hx.waits.paused.mpr ⟨h, m, hm, hs⟩).imp ?_
  intro _ x' ⟨y, hx', hexact, hgroups, hreleased⟩
  subst hx'
  refine ⟨⟨hexact, hx.lists.keep, hx.handlers.congr (altered_update (fun m => { m with
      reachedCloseMerge := [] }) hm) (fun _ => rfl) rfl rfl hgroups fun _ => Iff.rfl,
    hx.waits.released hm hreleased (fun hne => update_of_ne hne ..)
      (update_self ..) fun m' hm' => ?_⟩, ⟨y, _, rfl⟩, hgroups⟩
  cases hm'
  rfl

theorem Sound.deleteHandler (hx : Sound Inv held (h :: debt) x)
    (hm : x.mergeHandlers h = some m) (hlast : m.refCount = 1) :
    Runs (deleteHandler base now h) x fun _ x' => Sound Inv held debt x' ∧ Within x x' := by
  obtain ⟨groups, hpop, hperm⟩ := swapPop_perm (hx.handlers.groups.mpr ⟨m, hm⟩)
  refine .get_bind ?_
  rw [hpop]
  refine .modify_bind (.bind (releaseStates_spec hbase x.states
    ⟨hx.exact.base, hx.exact.nodup, hx.exact.disjoint, hx.exact.live⟩ hm (hx.waits.nodup hm)
    fun s hs => hx.waits.paused.mpr ⟨h, m, hm, hs⟩) ?_)
  intro _ x1 ⟨y, hx1, hexact, hgroups, hreleased⟩
  subst hx1
  have hother : ∀ {h'}, h' ≠ h → update (update x.mergeHandlers h
      (some { m with reachedCloseMerge := [] })) h none h' = x.mergeHandlers h' := by
    intro h' hne
    rw [update_of_ne hne, update_of_ne hne]
  exact ⟨⟨⟩, _, rfl, ⟨hexact, hx.lists.keep, hx.handlers.delete hm hlast (hgroups ▸ hperm)
    hother (update_self ..) rfl rfl, hx.waits.released hm
      ⟨hreleased.paused, hreleased.inClose⟩ hother (update_self ..) nofun⟩, y, _, rfl⟩

theorem Sound.decRef (hx : Sound Inv held (h :: debt) x) :
    Runs (decRef base now h) x fun _ x' => Sound Inv held debt x' ∧ Within x x' := by
  obtain ⟨m, hm⟩ := hx.handlers.owed List.mem_cons_self
  refine mergeHandler_bind hm ?_
  by_cases hlast : m.refCount = 1
  · rw [if_pos hlast]
    exact hx.deleteHandler hbase hm hlast
  · rw [if_neg hlast]
    have hf := altered_update (fun m => { m with refCount := m.refCount - 1 }) hm
    refine ⟨⟨⟩, _, rfl, ⟨hx.exact, hx.lists.keep, ?_,
      hx.waits.congr (fun _ hmem => hmem) hf (fun _ _ => rfl) rfl rfl⟩, _, _, rfl⟩
    refine hx.handlers.alter hf rfl ?_ ?_ hx.handlers.sorted hx.handlers.alive fun hmem =>
      hx.handlers.owed (List.mem_cons_of_mem h hmem)
    · intro h' m' hh' hm'
      obtain rfl := List.mem_singleton.mp hh'
      obtain rfl : m' = m := Option.some.inj (hm'.symm.trans hm)
      have hold := hx.handlers.handled hm
      have hpos := hold.pos
      have hcount := hold.count
      rw [List.count_cons_self] at hcount
      refine ⟨hold.open_iff, hold.open_nodup, ?_, ?_, hold.bound⟩
      · show m'.refCount - 1 = m'.openStates.length + debt.count h'
        omega
      · show 0 < m'.refCount - 1
        omega
    · intro h' m' hh' hm'
      have hne : h' ≠ h := fun heq => hh' (List.mem_singleton.mpr heq)
      exact (hx.handlers.handled hm').congr rfl (List.count_cons_of_ne hne.symm).symm Iff.rfl
        le_rfl

theorem Sound.decRefs (hx : Sound Inv held debt x) :
    Runs (debt.forM (Searchers.decRef base now)) x fun _ x' =>
      Sound Inv held [] x' ∧ Within x x' := by
  induction debt generalizing x with
  | nil => exact .pure ⟨hx, x.mergingSearcher, x.mergeHandlers, rfl⟩
  | cons h debt ih =>
    show Runs (Searchers.decRef base now h >>= fun _ => debt.forM _) x _
    refine .bind (hx.decRef hbase) ?_
    intro _ x1 ⟨hx1, hwithin⟩
    exact (ih hx1).imp fun _ x' ⟨hx', hwithin'⟩ => ⟨hx', hwithin.trans hwithin'⟩

/-- The state `s` is not in a list of the executor any more, but still there. -/
theorem Sound.deleteState (hexact : x.mergingSearcher.Exact Inv held x.states)
    (hlists : Lists x) (hhandlers : Handlers (fun t => x.Present t ∨ t = s) [] x)
    (hwaits : Waits x) :
    Runs (deleteState base now s) x fun _ x' => Sound Inv held [] x' ∧
      x'.deletedStates = x.deletedStates := by
  have hsorted := hhandlers.sorted (s := s) (.inr rfl)
  have hnodup : (x.openMergeStack s).Nodup := hsorted.imp fun hlt => ne_of_lt hlt
  have hopen : ∀ h ∈ x.openMergeStack s, ∃ m, x.mergeHandlers h = some m ∧
      s ∈ m.openStates := by
    intro h hmem
    obtain ⟨m, hm⟩ := hhandlers.alive (s := s) (.inr rfl) hmem
    exact ⟨m, hm, (hhandlers.open_iff hm).mpr ⟨.inr rfl, hmem⟩⟩
  refine .get_bind (.bind (forM_alters removeOpenState_spec hnodup hopen) ?_)
  intro _ x1 ⟨f, hx1, hf⟩
  subst hx1
  refine .modify_bind ?_
  have hstack : ∀ {t h}, h ∈ update x.openMergeStack s [] t ↔
      h ∈ x.openMergeStack t ∧ t ≠ s := by
    intro t h
    by_cases heq : t = s
    · rw [heq, update_self]
      simp
    · rw [update_of_ne heq]
      exact (and_iff_left heq).symm
  have hsound : Sound Inv held (x.openMergeStack s) { x with
      mergeHandlers := f, openMergeStack := update x.openMergeStack s [] } := by
    refine ⟨hexact, hlists.keep, ?_,
      hwaits.congr (fun _ hmem => (hstack.mp hmem).1) hf (fun _ _ => rfl) rfl rfl⟩
    refine hhandlers.leave hnodup hf (fun _ _ => rfl) rfl rfl (fun h hmem => ⟨.inr rfl, hmem⟩)
      .inl (fun {t h} => ?_) fun {t} => (Function.forall_update_iff _ (p := fun t
        (stack : List HandlerRef) => x.Present t → stack.Pairwise (· < ·))).mpr
          ⟨fun _ => .nil, fun t _ ht => hhandlers.sorted (.inl ht)⟩ t
    show _ ∧ h ∈ update x.openMergeStack s [] t ↔ _
    rw [hstack]
    by_cases heq : t = s
    · simp [heq]
    · simp [heq, Present]
  refine (hsound.decRefs hbase).imp ?_
  intro _ x' ⟨hx', y, g, heq⟩
  refine ⟨hx', ?_⟩
  rw [heq]

theorem Sound.deleteStates {rest : List StateRef} (hx : Sound Inv held [] x)
    (hrest : x.deletedStates = rest) :
    Runs (deleteStates base now rest) x fun _ x' => Sound Inv held [] x' := by
  induction rest generalizing x with
  | nil => exact .pure hx
  | cons s rest ih =>
    refine .modify_bind ?_
    have hlists := hx.lists
    have hnodup := hlists.deleted_nodup
    rw [hrest, List.nodup_cons] at hnodup
    have hsub : ∀ {t}, t ∈ rest → t ∈ x.deletedStates :=
      fun ht => hrest ▸ List.mem_cons_of_mem s ht
    have hpresent : ∀ {t}, x.Present t ↔
        ({ x with deletedStates := rest } : Merging σ).Present t ∨ t = s := by
      intro t
      unfold Present
      rw [hrest, List.mem_cons]
      tauto
    refine .bind (Sound.deleteState hbase hx.exact ⟨hlists.added_nodup, fun ht =>
      ⟨(hlists.added ht).1, fun ht' => (hlists.added ht).2 (hsub ht')⟩, hlists.removed_nodup,
      hlists.removed, hnodup.2, fun ht => hlists.deleted (hsub ht), hlists.current⟩
      (hx.handlers.of_eq rfl rfl rfl rfl fun _ => hpresent.symm)
      (hx.waits.of_eq rfl rfl rfl rfl)) ?_
    intro _ x1 ⟨hx1, hrest1⟩
    exact ih hx1 hrest1

theorem Sound.terminateState (hx : Sound Inv held [] x)
    (hs : s ∈ x.states ∨ s ∈ x.addedStates) (hnot : s ∉ x.removedStates) :
    Runs (terminateState base now s) x fun _ x' => Sound Inv held [] x' := by
  have hlists := hx.lists
  refine .get_bind ?_
  by_cases hadded : s ∈ x.addedStates
  · rw [if_pos hadded]
    refine .modify_bind ?_
    have hmem : ∀ {t}, t ∈ x.addedStates.erase s ↔ t ≠ s ∧ t ∈ x.addedStates :=
      hlists.added_nodup.mem_erase_iff
    refine (Sound.deleteState (x := { x with addedStates := x.addedStates.erase s })
      hbase hx.exact ⟨hlists.added_nodup.erase s, fun ht =>
      hlists.added (hmem.mp ht).2, hlists.removed_nodup, hlists.removed, hlists.deleted_nodup,
      hlists.deleted, hlists.current⟩ (hx.handlers.of_eq rfl rfl rfl rfl fun t => ?_)
      (hx.waits.of_eq rfl rfl rfl rfl)).imp fun _ _ hx' => hx'.1
    unfold Present
    rw [hmem]
    by_cases heq : t = s
    · simp [heq, hadded]
    · simp [heq]
  · rw [if_neg hadded]
    exact ⟨⟨⟩, _, rfl, hx.exact, hlists.remove (hs.resolve_right hadded) hnot,
      hx.handlers.of_eq rfl rfl rfl rfl fun _ => Iff.rfl, hx.waits.of_eq rfl rfl rfl rfl⟩

end

end Merging

end VitalSE.Searchers
