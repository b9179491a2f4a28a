import VitalSE.Proofs.SimulationSound

/-!
# Terminated states are accounted for once

The trace says which states were terminated, put into the list of removed
states, reported to the searcher and deleted. Without simulation each of this
happens once to a state, and the path counters agree, unless an instruction
terminates a state that it has terminated already. Such an instruction is not
followed by another round: the second time, the state is not found in the set of
states. The end of a simulation always breaks it, since the exit handler
terminates the state that is being terminated a second time.

What a program does to the ledger is said once, by the relation `Moves`: states
are made and terminated. The invariants are inductions over it. The books tie the
events to the memory. A state that was terminated is gone, or it is waiting in the
list of removed states, so that nothing but the instruction that is being executed
gets at it again.
-/

namespace VitalSE.Mcts

variable {l : Ledger} {closed : Bool} {condition : Expr} {e : Effect}
  {unreported pending : List StateRef} {kind : Kind} {rounds : List Round} {s : StateRef}

namespace Event

/-- The state that is terminated. -/
def terminated? : Event → Option StateRef
  | terminated s => some s
  | _ => none

/-- The removed state that the searcher hears of. -/
def notified? : Event → Option StateRef
  | notified s => some s
  | _ => none

/-- The state that is deleted. -/
def deleted? : Event → Option StateRef
  | deleted s => some s
  | _ => none

end Event

/-- The states that were terminated, in order. -/
def terminations (trace : List Event) : List StateRef := trace.filterMap Event.terminated?

/-- The states that the searcher was told to remove. -/
def notifications (trace : List Event) : List StateRef := trace.filterMap Event.notified?

/-- The states that were deleted. -/
def deletions (trace : List Event) : List StateRef := trace.filterMap Event.deleted?

section Append

variable {t u : List Event}

@[simp] theorem terminations_append :
    terminations (t ++ u) = terminations t ++ terminations u := List.filterMap_append ..

@[simp] theorem notifications_append :
    notifications (t ++ u) = notifications t ++ notifications u := List.filterMap_append ..

@[simp] theorem deletions_append : deletions (t ++ u) = deletions t ++ deletions u :=
  List.filterMap_append ..

end Append

/-- The numbers and the references of the states, and the number of paths. -/
structure Numbered (l : Ledger) : Prop where
  calm : l.Calm
  fresh : l.Fresh
  id_lt : ∀ s kind, l.kinds s = some kind → kind.id < l.nextID
  id_inj : ∀ s t kind kind', l.kinds s = some kind → l.kinds t = some kind' →
    kind.id = kind'.id → s = t
  states_lt : ∀ s ∈ l.states ++ l.addedStates, s < l.nextState
  states_nodup : (l.states ++ l.addedStates).Nodup
  terminated_lt : ∀ s ∈ terminations l.trace, s < l.nextState
  counted : l.paths = (terminations l.trace).length

/-- The events agree with the memory. `pending` are the removed states that are
not disposed of yet, and `unreported` those that the searcher has not heard of.
The states that are left in memory after a halt, with `closed`, are out of the
set of states. -/
structure Booked (closed : Bool) (pending unreported : List StateRef) (l : Ledger) : Prop
    extends Numbered l where
  terminated_gone : ∀ s ∈ terminations l.trace, l.kinds s = none ∨ s ∈ pending ∨
    closed = true ∧ s ∉ l.states ++ l.addedStates
  terminated_once : (terminations l.trace).Nodup
  pending_terminated : ∀ s ∈ pending, s ∈ terminations l.trace
  deleted_terminated : ∀ s ∈ deletions l.trace, s ∈ terminations l.trace
  deleted_gone : ∀ s ∈ deletions l.trace, l.kinds s = none
  deleted_once : (deletions l.trace).Nodup
  removed_terminated : (removals l.trace).Sublist (terminations l.trace)
  reported : removals l.trace = notifications l.trace ++ unreported

/-- The books outside of the update of the lists. -/
def Books (closed : Bool) (l : Ledger) : Prop :=
  Booked closed l.removedStates l.removedStates l

/-- What a change of the ledger that terminates the states `ts` and deletes the states
`ds` leaves as it is. -/
structure Entry (ts ds : List StateRef) (l l' : Ledger) : Prop where
  present : ∀ t ∈ ts, l.kinds t ≠ none
  calm : l.Calm → l'.Calm
  fresh : l.Fresh → l'.Fresh
  kinds : ∀ t kind, l'.kinds t = some kind → l.kinds t = some kind
  nextState : l'.nextState = l.nextState
  nextID : l'.nextID = l.nextID
  states : (l'.states ++ l'.addedStates).Sublist (l.states ++ l.addedStates)
  terminated : terminations l'.trace = terminations l.trace ++ ts
  deleted : deletions l'.trace = deletions l.trace ++ ds
  removed : (removals l'.trace).Sublist (removals l.trace ++ ts)
  paths : l'.paths = l.paths + ts.length

theorem Entry.kinds_ne {l' : Ledger} {ts ds : List StateRef} (he : Entry ts ds l l')
    (h : l'.kinds s ≠ none) : l.kinds s ≠ none := by
  obtain ⟨kind, hk⟩ := Option.ne_none_iff_exists'.mp h
  rw [he.kinds s kind hk]
  exact Option.some_ne_none kind

theorem erase_sublist : (l.states.erase s ++ l.addedStates).Sublist (l.states ++ l.addedStates) :=
  List.erase_sublist.append (.refl _)

/-- A state is taken out of the set. -/
theorem erase_entry : Entry [] [] l { l with states := l.states.erase s } where
  present := by simp
  calm hc := { hc with }
  fresh := id
  kinds _ _ hk := hk
  nextState := rfl
  nextID := rfl
  states := erase_sublist
  terminated := (List.append_nil _).symm
  deleted := (List.append_nil _).symm
  removed := by rw [List.append_nil]
  paths := rfl

theorem Ledger.fork_states : (l.fork kind).states ++ (l.fork kind).addedStates =
    (l.states ++ l.addedStates) ++ [l.nextState] :=
  (List.append_assoc ..).symm

namespace Numbered

variable {l' : Ledger} (h : Numbered l)

include h

theorem fork (hs : l.kinds s = some kind) : Numbered (l.fork kind) := by
  have hid {t : StateRef} {k : Kind} (hk : (l.fork kind).kinds t = some k) :
      t = l.nextState ∧ k.id = l.nextID ∨ l.kinds t = some k ∧ k.id < l.nextID := by
    by_cases ht : t = l.nextState
    · rw [ht, Ledger.fork_kinds_new] at hk
      cases hk
      exact .inl ⟨ht, rfl⟩
    · rw [Ledger.fork_kinds_old ht] at hk
      exact .inr ⟨hk, h.id_lt t k hk⟩
  exact {
    calm := (Ledger.fork_tame hs).calm h.calm
    fresh := (Ledger.fork_tame hs).fresh h.fresh
    id_lt := fun t k hk => by
      show k.id < l.nextID + 1
      have := hid hk
      omega
    id_inj := fun t u k k' hk hk' heq => by
      have ht := hid hk
      have hu := hid hk'
      grind [h.id_inj]
    states_lt := by
      show ∀ t ∈ _, t < l.nextState + 1
      have hlt := h.states_lt
      grind [Ledger.fork_states]
    states_nodup := by
      have hlt := h.states_lt
      grind [Ledger.fork_states, h.states_nodup]
    terminated_lt := fun t ht => Nat.lt_succ_of_lt (h.terminated_lt t ht)
    counted := h.counted }

theorem entry {ts ds : List StateRef} (he : Entry ts ds l l') : Numbered l' where
  calm := he.calm h.calm
  fresh := he.fresh h.fresh
  id_lt t k hk := he.nextID ▸ h.id_lt t k (he.kinds t k hk)
  id_inj t u k k' hk hk' := h.id_inj t u k k' (he.kinds t k hk) (he.kinds u k' hk')
  states_lt t ht := he.nextState ▸ h.states_lt t (he.states.subset ht)
  states_nodup := he.states.nodup h.states_nodup
  terminated_lt t ht := by
    rw [he.terminated, List.mem_append] at ht
    rw [he.nextState]
    exact ht.elim (h.terminated_lt t) fun ht => h.fresh t (he.present t ht)
  counted := by rw [he.terminated, he.paths, h.counted, List.length_append]

end Numbered

namespace Booked

variable {l l' : Ledger}

/-- A state is made. -/
theorem fork (h : Booked closed pending unreported l) (hs : l.kinds s = some kind) :
    Booked closed pending unreported (l.fork kind) := by
  have hold {t : StateRef} (ht : t ∈ terminations l.trace) : t ≠ l.nextState :=
    (h.terminated_lt t ht).ne
  exact { h with
    toNumbered := h.toNumbered.fork hs
    terminated_gone := fun t ht => by
      have hne := hold ht
      have hgone := h.terminated_gone t ht
      rw [Ledger.fork_kinds_old hne, Ledger.fork_states]
      grind
    deleted_gone := fun t ht => by
      rw [Ledger.fork_kinds_old (hold (h.deleted_terminated t ht))]
      exact h.deleted_gone t ht }

section

variable (h : Booked closed pending unreported l) {unreported' : List StateRef}

include h

/-- A change is booked: what is terminated was there, and is gone then or waits to be
deleted. -/
theorem post {ts ds pending' : List StateRef} (he : Entry ts ds l l')
    (hts : ts.Nodup ∧ ∀ t ∈ ts, t ∉ terminations l.trace)
    (hds : ds.Nodup ∧ ∀ t ∈ ds, l.kinds t ≠ none ∧ l'.kinds t = none ∧
      t ∈ terminations l.trace ++ ts)
    (hgone : ∀ t ∈ pending ++ ts, l'.kinds t = none ∨ t ∈ pending' ∨
      closed = true ∧ t ∉ l'.states ++ l'.addedStates)
    (hpending : ∀ t ∈ pending', t ∈ pending ∨ t ∈ ts)
    (hreported : removals l'.trace = notifications l'.trace ++ unreported') :
    Booked closed pending' unreported' l' := by
  have hnone : ∀ t, l.kinds t = none → l'.kinds t = none := fun t =>
    not_imp_not.mp he.kinds_ne
  exact {
    toNumbered := h.toNumbered.entry he
    terminated_gone := fun t ht => by
      have hold := h.terminated_gone t
      have hin (h : t ∈ l'.states ++ l'.addedStates) := he.states.subset h
      grind [he.terminated]
    terminated_once := he.terminated ▸ List.nodup_append.mpr
      ⟨h.terminated_once, hts.1, fun t ht u hu heq => hts.2 u hu (heq ▸ ht)⟩
    pending_terminated := he.terminated ▸ fun t ht =>
      List.mem_append.mpr ((hpending t ht).imp_left (h.pending_terminated t))
    deleted_terminated := by grind [he.deleted, he.terminated, h.deleted_terminated]
    deleted_gone := by grind [he.deleted, h.deleted_gone]
    deleted_once := he.deleted ▸ List.nodup_append.mpr ⟨h.deleted_once, hds.1,
      fun t ht u hu heq => (hds.2 u hu).1 (h.deleted_gone u (heq ▸ ht))⟩
    removed_terminated := he.terminated ▸ he.removed.trans
      (h.removed_terminated.append (.refl _))
    reported := hreported }

/-- Events that terminate nothing. -/
theorem log {events : List Event} (htame : l.Tame (l.log events))
    (hterm : terminations events = []) (hrem : removals events = []) (hdel : deletions events = [])
    (hnotified : unreported = notifications events ++ unreported') :
    Booked closed pending unreported' (l.log events) := by
  have hrem' : removals (l.log events).trace = removals l.trace := by
    rw [Ledger.log, removals_append, hrem, List.append_nil]
  have he : Entry [] [] l (l.log events) :=
    { present := by simp
      calm := htame.calm
      fresh := htame.fresh
      kinds := fun _ _ hk => hk
      nextState := rfl
      nextID := rfl
      states := .refl _
      terminated := by rw [Ledger.log, terminations_append, hterm]
      deleted := by rw [Ledger.log, deletions_append, hdel]
      removed := by rw [hrem', List.append_nil]
      paths := rfl }
  refine h.post he (by simp) (by simp) (fun t ht => .inr (.inl (by simpa using ht)))
    (fun t ht => .inl ht) ?_
  rw [hrem', Ledger.log, notifications_append, List.append_assoc, ← hnotified]
  exact h.reported

/-- The added states go into the set. -/
theorem insert {states : List StateRef}
    (hsub : ∀ t ∈ states, t ∈ l.states ++ l.addedStates) (hnodup : states.Nodup) :
    Booked closed pending unreported { l with states := states, addedStates := [] } :=
  { h with
    calm := { h.calm with }
    states_lt := fun t ht => h.states_lt t (hsub t (by simpa using ht))
    states_nodup := by simpa using hnodup
    terminated_gone := fun t ht => (h.terminated_gone t ht).imp_right
      (.imp_right fun ⟨hc, hout⟩ => ⟨hc, fun hin => hout (hsub t (by simpa using hin))⟩) }

theorem lists {removed suspended resumed : List StateRef} :
    Booked closed pending unreported
      { l with
        removedStates := removed
        suspendedStates := suspended
        resumedStates := resumed } :=
  { h with calm := { h.calm with } }

theorem mono (b : Bool) : Booked (closed || b) pending unreported l :=
  { h with
    terminated_gone := fun t ht => (h.terminated_gone t ht).imp_right
      (.imp_right fun ⟨hc, hout⟩ => ⟨by simp [hc], hout⟩) }

end

/-- A removed state is taken out of the set and left in memory. -/
theorem leave (h : Booked closed (s :: pending) unreported l) (hclosed : closed = true)
    (hs : s ∈ l.states) :
    Booked closed pending unreported { l with states := l.states.erase s } := by
  refine h.post erase_entry (by simp) (by simp) (fun t ht => .inr ?_)
    (fun t ht => .inl (List.mem_cons_of_mem _ ht)) h.reported
  have hnodup := h.states_nodup
  grind [List.Nodup.not_mem_erase]

end Booked

theorem retire_entry (hs : l.kinds s ≠ none) :
    Entry [s] (if s ∈ l.addedStates then [s] else []) l (l.retire s) := by
  have htame : l.Tame (l.retire s) := Ledger.retire_tame
  unfold Ledger.retire at *
  split
  · next hadded =>
    rw [if_pos hadded] at htame
    refine ⟨by simpa, htame.calm, htame.fresh, fun _ _ => Ledger.kinds_dropped, rfl, rfl,
      (List.Sublist.refl _).append List.erase_sublist, terminations_append, deletions_append,
      ?_, rfl⟩
    rw [removals_append]
    exact (List.Sublist.refl _).append (List.nil_sublist _)
  · next hadded =>
    rw [if_neg hadded] at htame
    refine ⟨by simpa, htame.calm, htame.fresh, fun _ _ hk => hk, rfl, rfl, .refl _,
      terminations_append, deletions_append, ?_, rfl⟩
    rw [removals_append]
    exact .refl _

theorem Books.retire (h : Books closed l) (hs : l.kinds s ≠ none)
    (hnot : s ∉ terminations l.trace) : Books closed (l.retire s) := by
  have hts : [s].Nodup ∧ ∀ t ∈ [s], t ∉ terminations l.trace := by simpa using hnot
  have he : Entry [s] _ l (l.retire s) := retire_entry hs
  unfold Books Ledger.retire at *
  split
  · next hadded =>
    rw [if_pos hadded, if_pos hadded] at he
    refine Booked.post h he hts ⟨List.nodup_singleton s, ?_⟩ ?_ (fun t ht => .inl ht) ?_
    · simp [hs]
    · grind
    · rw [removals_append, notifications_append, h.reported]
      simp [removals, notifications, List.filterMap_cons, Event.removed?, Event.notified?]
  · next hadded =>
    rw [if_neg hadded, if_neg hadded] at he
    refine Booked.post h he hts (by simp) (fun t ht => .inr (.inl ht))
      (fun t ht => List.mem_append.mp ht) ?_
    rw [removals_append, notifications_append, h.reported]
    simp [removals, notifications, List.filterMap_cons, Event.removed?, Event.notified?]

/-- A state that was only added is gone. -/
theorem retire_added (hs : s ∈ l.addedStates) : (l.retire s).kinds s = none := by
  rw [Ledger.retire, if_pos hs]
  exact Function.update_self ..

/-! ## The states that wait for their removal -/

/-- A state that was terminated and is still in memory waits in the list of removed
states, and is not in the list of new ones. -/
structure Waiting (l : Ledger) : Prop extends Numbered l where
  not_added : ∀ t ∈ terminations l.trace, t ∉ l.addedStates
  waits : ∀ t ∈ terminations l.trace, l.kinds t ≠ none → t ∈ l.removedStates
  /-- Twice terminated is twice in the list. -/
  once : l.removedStates.Nodup → (terminations l.trace).Nodup

namespace Waiting

variable (h : Waiting l)

include h

theorem fork (hs : l.kinds s = some kind) : Waiting (l.fork kind) where
  toNumbered := h.toNumbered.fork hs
  not_added t ht := by
    show t ∉ l.addedStates ++ [l.nextState]
    simpa using ⟨h.not_added t ht, (h.terminated_lt t ht).ne⟩
  waits t ht hk := by
    rw [Ledger.fork_kinds_old (h.terminated_lt t ht).ne] at hk
    exact h.waits t ht hk
  once := h.once

theorem retire (hs : l.kinds s ≠ none) : Waiting (l.retire s) := by
  have he : Entry [s] _ l (l.retire s) := retire_entry hs
  exact {
    toNumbered := h.toNumbered.entry he
    not_added := by
      rw [he.terminated]
      have hnodup := h.states_nodup
      have hnot := h.not_added
      unfold Ledger.retire
      grind [List.Nodup.not_mem_erase]
    waits := by
      rw [he.terminated]
      intro t ht hk
      have hold : t ∈ terminations l.trace → t ∈ l.removedStates :=
        fun ht => h.waits t ht ((retire_entry hs).kinds_ne hk)
      have hgone (hin : s ∈ l.addedStates) := retire_added hin
      unfold Ledger.retire
      grind
    once := by
      rw [he.terminated]
      intro hnodup
      have hold : l.removedStates.Nodup ∧ s ∉ terminations l.trace := by
        have hnot := h.not_added s
        have hin := h.waits s
        unfold Ledger.retire at hnodup
        grind
      have honce := h.once hold.1
      grind }

end Waiting

/-! ## Making and terminating states -/

/-- States are made and terminated, and the execution may be halted. `ts` are the
states that are terminated. -/
inductive Ledger.Moves (l : Ledger) : List StateRef → Ledger → Prop
  | refl : Moves l [] l
  | fork {ts l' s kind} : Moves l ts l' → l'.kinds s = some kind → Moves l ts (l'.fork kind)
  | retire {ts l' s} : Moves l ts l' → l'.kinds s ≠ none → Moves l (ts ++ [s]) (l'.retire s)
  | halt {ts l'} : Moves l ts l' → Moves l ts { l' with haltExecution := true }

namespace Ledger.Moves

variable {l l' l'' : Ledger} {ts ts' : List StateRef}

theorem of_eq (h : l' = l) : l.Moves [] l' := h ▸ .refl

theorem trans (h : l.Moves ts l') (h' : l'.Moves ts' l'') : l.Moves (ts ++ ts') l'' := by
  induction h' with
  | refl =>
    rw [List.append_nil]
    exact h
  | fork _ hs ih => exact ih.fork hs
  | retire _ hs ih =>
    rw [← List.append_assoc]
    exact ih.retire hs
  | halt _ ih => exact ih.halt

section

variable (h : l.Moves ts l')

include h

theorem terminated : terminations l'.trace = terminations l.trace ++ ts := by
  induction h with
  | refl => exact (List.append_nil _).symm
  | fork _ _ ih => exact ih
  | retire _ hs ih => rw [(retire_entry hs).terminated, ih, List.append_assoc]
  | halt _ ih => exact ih

theorem calm (hl : l.Calm) : l'.Calm := by
  induction h with
  | refl => exact hl
  | fork _ hs ih => exact (fork_tame hs).calm ih
  | retire _ _ ih => exact retire_tame.calm ih
  | halt _ ih => exact { ih with }

theorem waiting (hl : Waiting l) : Waiting l' := by
  induction h with
  | refl => exact hl
  | fork _ hs ih => exact ih.fork hs
  | retire _ hs ih => exact ih.retire hs
  | halt _ ih => exact { ih with calm := { ih.calm with } }

/-- The books are kept if no state is terminated twice. -/
theorem books (hl : Books false l) (honce : (terminations l'.trace).Nodup) : Books false l' := by
  induction h with
  | refl => exact hl
  | fork _ hs ih => exact Booked.fork (ih honce) hs
  | retire _ hs ih =>
    rw [(retire_entry hs).terminated] at honce
    obtain ⟨hold, -, hdisjoint⟩ := List.nodup_append.mp honce
    exact (ih hold).retire hs fun ht => hdisjoint _ ht _ List.mem_cons_self rfl
  | halt _ ih => exact { ih honce with calm := { (ih honce).calm with } }

end

end Ledger.Moves

/-- The states `ts` are terminated, and otherwise only new ones, which are gone
then. -/
def Ledger.Terminates (ts : List StateRef) (l l' : Ledger) : Prop :=
  (∀ s ∈ ts, l.kinds s ≠ none) ∧ ∃ new, l.Moves (ts ++ new) l' ∧ new.Nodup ∧
    ∀ t ∈ new, l.nextState ≤ t ∧ l'.kinds t = none

theorem Ledger.Terminates.nodup_iff {l' : Ledger} {ts : List StateRef}
    (h : l.Terminates ts l') (hl : Waiting l) (hts : ts.Nodup) :
    (terminations l'.trace).Nodup ↔
      (terminations l.trace).Nodup ∧ ∀ s ∈ ts, s ∉ terminations l.trace := by
  obtain ⟨hkinds, new, hmoves, hnew, hgone⟩ := h
  -- a new state has a reference that no other state has had
  have hold : ∀ s ∈ ts, s < l.nextState := fun s hs => hl.fresh s (hkinds s hs)
  have hlt := hl.terminated_lt
  rw [hmoves.terminated]
  grind

namespace Executor

variable {env : Env} {x : Executor} {l : List StateRef} {round : Round}
  {current : Option StateRef} {searcher : SimulationSearcher}

/-! ## Instructions -/

section

variable {n : Nat} {result : List StateRef} (hcalm : x.ledger.Calm)

include hcalm

end

/-- No state is suspended, so that none is kept from the searcher. -/
theorem filterRemoved_calm (hcalm : x.ledger.Calm) :
    Yields (filterRemoved l) x fun r x' => x = x' ∧ r = l := by
  induction l with
  | nil => exact .pure ⟨rfl, rfl⟩
  | cons es l ih =>
    refine state_bind fun st hst => ?_
    refine .bind ih ?_
    rintro r _ ⟨rfl, rfl⟩
    have hsuspended : st.isSuspended = false :=
      (hcalm.normal es st.kind (by simp [ledger, hst])).2
    rw [hsuspended, Bool.and_false, if_neg (by simp)]
    exact .pure ⟨rfl, rfl⟩

theorem notify_yields : Yields (l.forM fun es => record (.notified es)) x fun _ x' =>
      x'.ledger = x.ledger.log (l.map .notified) := by
  induction l generalizing x with
  | nil => exact .pure (by simp [Ledger.log])
  | cons es l ih =>
    show Yields (record (.notified es) >>= fun _ => l.forM _) x _
    refine .bind record_yields fun _ x1 h1 => ih.imp fun _ x2 h2 => ?_
    rw [h2, h1.1]
    simp [Ledger.log]

theorem insertById_yields {id : Nat} {es : StateRef} : Yields (insertById id es l) x fun r x' =>
      x'.ledger = x.ledger ∧ (r = l ∨ r.Perm (es :: l)) := by
  refine (insertById_inert x).and ?_
  induction l with
  | nil => exact .pure (.inr (.refl _))
  | cons s l ih =>
    refine state_bind fun st _ => ?_
    split
    · exact .pure (.inr (.refl _))
    split
    · exact .pure (.inl rfl)
    · refine .bind ih fun r _ hr => .pure ?_
      rcases hr with rfl | hr
      · exact .inl rfl
      · exact .inr ((hr.cons s).trans (.swap es s l))

/-- The set after the insertion of new states. -/
theorem insertStates_yields {rest : List StateRef}
    (hnodup : (x.ledger.states ++ rest).Nodup) :
    Yields (insertStates rest) x fun _ x' => ∃ states,
      x'.ledger = { x.ledger with states := states } ∧ states.Nodup ∧
        ∀ t ∈ states, t ∈ x.ledger.states ++ rest := by
  induction rest generalizing x with
  | nil =>
    refine .pure ⟨x.ledger.states, rfl, ?_, by simp⟩
    simpa using hnodup
  | cons es rest ih =>
    refine state_bind fun st _ => ?_
    refine .get_bind (.bind insertById_yields ?_)
    rintro r x1 ⟨h1, hr⟩
    obtain ⟨hmem, hnodup'⟩ : r ++ rest ⊆ x.ledger.states ++ es :: rest ∧
        (r ++ rest).Nodup := by
      rcases hr with rfl | hr
      · have hsub : (x.ledger.states ++ rest).Sublist (x.ledger.states ++ es :: rest) :=
          (List.Sublist.refl _).append (List.sublist_cons_self ..)
        exact ⟨hsub.subset, hsub.nodup hnodup⟩
      · have hperm := (hr.append_right rest).trans List.perm_middle.symm
        exact ⟨hperm.subset, hperm.nodup_iff.mpr hnodup⟩
    refine .modify_bind (Yields.imp (ih (x := { x1 with states := r }) hnodup') ?_)
    rintro _ x2 ⟨states, h2, hstates, hsub⟩
    refine ⟨states, ?_, hstates, fun t ht => hmem (hsub t ht)⟩
    rw [h2]
    show ({ x1.ledger with states := states } : Ledger) = _
    rw [h1]

/-- The ledger when the searcher has been told and the new states are in the set. -/
def reported (x : Executor) (states : List StateRef) : Ledger :=
  { x.ledger.log (x.removedStates.map .notified) with
    suspendedStates := []
    resumedStates := []
    states := states
    addedStates := [] }

/-- What is left is to dispose of the removed states. -/
theorem updateStates_yields {R : Executor → Prop} (h : Numbered x.ledger)
    (hrest : ∀ states x', x'.ledger = x.reported states → states.Nodup →
      (∀ t ∈ states, t ∈ x.ledger.states ++ x.ledger.addedStates) →
      Yields (disposeStates env x.removedStates) x' fun _ x'' =>
        R { x'' with removedStates := [] }) :
    Yields (updateStates env current) x fun _ x' => R x' := by
  refine .get_bind (.bind (filterRemoved_calm h.calm) ?_)
  rintro _ _ ⟨rfl, rfl⟩
  refine .bind (updateSearcher_inert x) fun _ x1 h1 => ?_
  have h1 : x1.ledger = x.ledger := h1
  refine .bind notify_yields fun _ x2 h2 => ?_
  refine .bind (Keeps.forM (fun _ _ => updateSearcher_inert) x2) fun _ x3 h3 => ?_
  refine .modify_bind (.bind (Keeps.forM (fun _ _ => updateSearcher_inert) _)
    fun _ x4 h4 => .modify_bind ?_)
  have h4 : x4.ledger =
      { x.ledger.log (x.removedStates.map .notified) with suspendedStates := [] } := by
    rw [show x4.ledger = { x3.ledger with suspendedStates := [] } from h4,
      show x3.ledger = x2.ledger from h3, h2, h1]
  have hstates : x4.ledger.states = x.ledger.states := by
    rw [h4]
    rfl
  have hnodup : (x4.ledger.states ++ x.addedStates).Nodup := hstates ▸ h.states_nodup
  refine .bind (insertStates_yields hnodup) ?_
  rintro _ x5 ⟨states, h5, hnodup, hsub⟩
  refine .modify_bind (.bind (hrest states _ ?_ hnodup (hstates ▸ hsub)) fun _ x6 h6 => ?_)
  · show ({ x5.ledger with addedStates := [] } : Ledger) = _
    rw [h5]
    show ({ x4.ledger with resumedStates := [], states := states, addedStates := [] } :
      Ledger) = _
    rw [h4]
    rfl
  · intro _ x' heq
    cases heq
    exact h6

/-- Between two rounds all removed states are disposed of, and no state is left
in memory before the execution is halted. -/
structure Settled (closed : Bool) (l : Ledger) : Prop where
  books : Books closed l
  halted : closed = true → l.haltExecution = true
  disposed : l.removedStates = []
  inserted : l.addedStates = []

/-- Before an instruction no terminated state is in memory. -/
theorem Settled.waiting {l : Ledger} (h : Settled false l) : Waiting l where
  toNumbered := h.books.toNumbered
  not_added t _ := h.inserted ▸ List.not_mem_nil
  waits t ht hk := by
    rcases h.books.terminated_gone t ht with hgone | hpending | ⟨hclosed, -⟩
    · exact absurd hgone hk
    · exact hpending
    · cases hclosed
  once _ := h.books.terminated_once

end Executor

end VitalSE.Mcts
