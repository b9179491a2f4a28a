import Mathlib.Tactic.Common

/-!
# Programs with a state and exceptions

`Runs m s Q` says that the program `m`, started in `s`, returns without an
exception, and that `Q` holds of what it returns and of the state it leaves. A
program is verified by these rules from the specifications of its parts, with
no look at the states in between.

`Yields m s Q` is the same without the claim that the program returns: it is for
what holds after a step whenever the step was possible. `Meets c m s Q` claims it
where `c` holds, so that one proof says when the program returns and what it does.
-/

section

variable {σ ε α β : Type} {m : StateT σ (Except ε) α} {s s' : σ} {P Q : α → σ → Prop}
  {R : β → σ → Prop} {a : α} {c : Prop} {e e' : ε} {r : Except ε α} {g : σ → σ}
  {f : α → StateT σ (Except ε) β} {k : PUnit → StateT σ (Except ε) β} {l : List α}

/-- Total correctness from one state. -/
def Runs {σ ε α : Type} (m : StateT σ (Except ε) α) (s : σ)
    (Q : α → σ → Prop) : Prop :=
  ∃ a s', m s = .ok (a, s') ∧ Q a s'

namespace Runs

theorem pure (h : Q a s) : Runs (pure a : StateT σ (Except ε) α) s Q :=
  ⟨a, s, rfl, h⟩

theorem bind (h : Runs m s P) (hf : ∀ a s', P a s' → Runs (f a) s' R) : Runs (m >>= f) s R := by
  obtain ⟨a, s', hm, hP⟩ := h
  obtain ⟨b, s'', hb, hR⟩ := hf a s' hP
  refine ⟨b, s'', ?_, hR⟩
  show (m s >>= fun p => f p.1 p.2) = _
  rw [hm]
  exact hb

/-- The first program only reads. -/
theorem bind_eq (h : Runs m s fun a' s' => a = a' ∧ s = s') (hf : Runs (f a) s R) :
    Runs (m >>= f) s R := by
  refine h.bind ?_
  rintro _ _ ⟨rfl, rfl⟩
  exact hf

theorem imp (h : Runs m s P) (hPQ : ∀ a s', P a s' → Q a s') : Runs m s Q := by
  obtain ⟨a, s', hm, hP⟩ := h
  exact ⟨a, s', hm, hPQ a s' hP⟩

/-- What is claimed of the outcome may use that it is the outcome. -/
theorem and_eq (h : Runs m s P) : Runs m s fun a s' => P a s' ∧ m s = .ok (a, s') := by
  obtain ⟨a, s', hm, hP⟩ := h
  exact ⟨a, s', hm, hP, hm⟩

theorem get_bind {f : σ → StateT σ (Except ε) β} (h : Runs (f s) s R) : Runs (get >>= f) s R := h

theorem put {Q : PUnit → σ → Prop} (h : Q ⟨⟩ s') :
    Runs (set s' : StateT σ (Except ε) PUnit) s Q := ⟨⟨⟩, s', rfl, h⟩

theorem set_bind (h : Runs (k ⟨⟩) s' R) : Runs (set s' >>= k) s R := h

theorem modify_bind (h : Runs (k ⟨⟩) (g s) R) : Runs (modify g >>= k) s R := h

theorem except_bind (hr : r = .ok a) (h : Runs (f a) s R) :
    Runs ((liftM r : StateT σ (Except ε) α) >>= f) s R := by
  subst hr
  exact h

theorem liftExcept (hr : r = .ok a) (h : Q a s) :
    Runs (liftM r : StateT σ (Except ε) α) s Q := ⟨a, s, by rw [hr]; rfl, h⟩

end Runs

/-- Partial correctness from one state. -/
def Yields {σ ε α : Type} (m : StateT σ (Except ε) α) (s : σ)
    (Q : α → σ → Prop) : Prop :=
  ∀ a s', m s = .ok (a, s') → Q a s'

theorem Except.ok_bind (a : α) (f : α → Except ε β) : (.ok a >>= f) = f a := rfl

theorem Except.bind_eq_ok {f : α → Except ε β} {b : β} :
    (r >>= f) = .ok b ↔ ∃ a, r = .ok a ∧ f a = .ok b := by
  cases r with
  | error e => simp [bind, Except.bind]
  | ok a => simp [bind, Except.bind]

/-- A result that was computed, with what was computed of it. -/
theorem Except.ok_of_any {p : α → Prop} [DecidablePred p]
    (h : r.toOption.any (fun a => p a) = true) : ∃ a, r = .ok a ∧ p a := by
  cases r with
  | error e => cases h
  | ok a => exact ⟨a, rfl, of_decide_eq_true h⟩

theorem Except.ok_unit_of_any {σ : Type} {r : Except ε (Unit × σ)} {p : σ → Prop}
    [DecidablePred p] (h : r.toOption.any (fun a => p a.2) = true) :
    ∃ s, r = .ok ((), s) ∧ p s := by
  obtain ⟨⟨⟨⟩, s⟩, hr, hp⟩ := Except.ok_of_any h
  exact ⟨s, hr, hp⟩

/-- The result is the error. -/
def Except.failsWith {ε α : Type} [DecidableEq ε] (e : ε) : Except ε α → Bool
  | .ok _ => false
  | .error e' => e' = e

theorem Except.error_of_failsWith [DecidableEq ε] (h : r.failsWith e = true) : r = .error e := by
  cases r with
  | error e' => exact congrArg _ (of_decide_eq_true h)
  | ok a => cases h

namespace Yields

theorem pure (h : Q a s) : Yields (pure a : StateT σ (Except ε) α) s Q := by
  intro a' s' heq
  cases heq
  exact h

theorem throw : Yields (throw e : StateT σ (Except ε) α) s Q := by
  intro a s' heq
  cases heq

theorem bind (h : Yields m s P) (hf : ∀ a s', P a s' → Yields (f a) s' R) :
    Yields (m >>= f) s R := by
  intro b s' heq
  obtain ⟨⟨a, s1⟩, hm, hb⟩ := Except.bind_eq_ok.mp heq
  exact hf a s1 (h a s1 hm) b s' hb

theorem imp (h : Yields m s P) (hPQ : ∀ a s', P a s' → Q a s') : Yields m s Q :=
  fun a s' heq => hPQ a s' (h a s' heq)

theorem and (h : Yields m s P) (h' : Yields m s Q) : Yields m s fun a s' => P a s' ∧ Q a s' :=
  fun a s' heq => ⟨h a s' heq, h' a s' heq⟩

theorem get_bind {f : σ → StateT σ (Except ε) β} (h : Yields (f s) s R) :
    Yields (get >>= f) s R := h

theorem set_bind (h : Yields (k ⟨⟩) s' R) : Yields (set s' >>= k) s R := h

theorem modify_bind (h : Yields (k ⟨⟩) (g s) R) : Yields (modify g >>= k) s R := h

theorem except_bind (h : ∀ a, r = .ok a → Yields (f a) s R) :
    Yields ((liftM r : StateT σ (Except ε) α) >>= f) s R := by
  cases r with
  | error e => exact fun _ _ heq => by cases heq
  | ok a => exact h a rfl

end Yields

/-- Correctness from one state, total where `c` holds: only without it is an
exception raised. -/
structure Meets {σ ε α : Type} (c : Prop) (m : StateT σ (Except ε) α) (s : σ)
    (Q : α → σ → Prop) : Prop where
  returns : c → ∃ p, m s = .ok p
  yields : Yields m s Q

namespace Meets

theorem pure (h : Q a s) : Meets c (pure a : StateT σ (Except ε) α) s Q :=
  ⟨fun _ => ⟨_, rfl⟩, .pure h⟩

theorem throw (h : ¬ c) : Meets c (throw e : StateT σ (Except ε) α) s Q :=
  ⟨fun hc => absurd hc h, .throw⟩

theorem bind (h : Meets c m s P) (hf : ∀ a s', P a s' → Meets c (f a) s' R) :
    Meets c (m >>= f) s R := by
  refine ⟨fun hc => ?_, h.yields.bind fun a s' hP => (hf a s' hP).yields⟩
  obtain ⟨⟨a, s'⟩, hm⟩ := h.returns hc
  obtain ⟨p, hp⟩ := (hf a s' (h.yields a s' hm)).returns hc
  exact ⟨p, Except.bind_eq_ok.mpr ⟨_, hm, hp⟩⟩

theorem imp (h : Meets c m s P) (hPQ : ∀ a s', P a s' → Q a s') : Meets c m s Q :=
  ⟨h.returns, h.yields.imp hPQ⟩

theorem get_bind {f : σ → StateT σ (Except ε) β} (h : Meets c (f s) s R) :
    Meets c (get >>= f) s R := ⟨h.returns, h.yields⟩

theorem modify {Q : PUnit → σ → Prop} (h : Q ⟨⟩ (g s)) :
    Meets c (modify g : StateT σ (Except ε) PUnit) s Q :=
  ⟨fun _ => ⟨_, rfl⟩, fun _ _ heq => by cases heq; exact h⟩

theorem except_ok (hr : r = .ok a) (h : Meets c (f a) s R) :
    Meets c ((liftM r : StateT σ (Except ε) α) >>= f) s R := by
  subst hr
  exact ⟨h.returns, h.yields⟩

/-- Where the program has to return, the result has the property as well. -/
theorem except_bind {p : α → Prop} (hr : c → ∃ a, r = .ok a ∧ p a)
    (h : ∀ a, r = .ok a → (c → p a) → Meets c (f a) s R) :
    Meets c ((liftM r : StateT σ (Except ε) α) >>= f) s R := by
  cases r with
  | error e => exact ⟨fun hc => (nomatch hr hc), fun _ _ heq => by cases heq⟩
  | ok a =>
    refine except_ok rfl (h a rfl fun hc => ?_)
    obtain ⟨_, heq, ha⟩ := hr hc
    cases heq
    exact ha

theorem liftExcept (hr : c → ∃ a, r = .ok a) (h : ∀ a, r = .ok a → Q a s) :
    Meets c (liftM r : StateT σ (Except ε) α) s Q := by
  cases r with
  | error e => exact ⟨fun hc => (nomatch hr hc), fun _ _ heq => by cases heq⟩
  | ok a => exact ⟨fun _ => ⟨_, rfl⟩, fun _ _ heq => by cases heq; exact h a rfl⟩

end Meets

/-- What the program does from any state is in the relation `R`. -/
def Keeps {σ ε α : Type} (R : σ → σ → Prop) (m : StateT σ (Except ε) α) : Prop :=
  ∀ s, Yields m s fun _ s' => R s s'

namespace Keeps

variable {R : σ → σ → Prop}

theorem throw : Keeps R (throw e : StateT σ (Except ε) α) :=
  fun _ => .throw

theorem modify (h : ∀ s, R s (g s)) : Keeps R (modify g : StateT σ (Except ε) PUnit) := by
  intro s a s' heq
  cases heq
  exact h s

theorem pure [Std.Refl R] : Keeps R (pure a : StateT σ (Except ε) α) :=
  fun s => .pure (refl s)

theorem get [Std.Refl R] : Keeps R (get : StateT σ (Except ε) σ) := by
  intro s a s' heq
  cases heq
  exact refl s

theorem liftM [Std.Refl R] : Keeps R (liftM r : StateT σ (Except ε) α) := by
  intro s a s' heq
  cases r with
  | error e => cases heq
  | ok b =>
    cases heq
    exact refl s

theorem bind [IsTrans σ R] (h : Keeps R m) (hf : ∀ a, Keeps R (f a)) : Keeps R (m >>= f) := by
  intro s
  refine Yields.bind (h s) fun a s' hs => ?_
  exact (hf a s').imp fun _ _ hs' => IsTrans.trans _ _ _ hs hs'

theorem forM [Std.Refl R] [IsTrans σ R] {f : α → StateT σ (Except ε) PUnit}
    (h : ∀ a ∈ l, Keeps R (f a)) : Keeps R (l.forM f) := by
  induction l with
  | nil => exact pure
  | cons a l ih =>
    show Keeps R (f a >>= fun _ => l.forM f)
    exact bind (h a (by simp)) fun _ =>
      ih fun b hb => h b (List.mem_cons_of_mem _ hb)

end Keeps

/-- The states look the same. -/
def Same {σ γ : Type} (view : σ → γ) (s s' : σ) : Prop := view s' = view s

instance {σ γ : Type} {view : σ → γ} : Std.Refl (Same view) := ⟨fun _ => rfl⟩

instance {σ γ : Type} {view : σ → γ} : IsTrans σ (Same view) :=
  ⟨fun _ _ _ h h' => Eq.trans h' h⟩

/-- The program leaves what `view` shows of the state as it is. -/
abbrev Fixes {σ ε α γ : Type} (view : σ → γ) (m : StateT σ (Except ε) α) : Prop :=
  Keeps (Same view) m

/-- What every step of a loop keeps, the loop keeps. -/
theorem Except.foldlM_keeps {step : β → α → Except ε β} {R : β → Prop}
    (h : ∀ b a b', R b → step b a = .ok b' → R b') :
    ∀ {l : List α} {b b' : β}, R b → l.foldlM step b = .ok b' → R b'
  | [], b, b', hb, heq => by
    cases heq
    exact hb
  | a :: l, b, b', hb, heq => by
    rw [List.foldlM_cons] at heq
    obtain ⟨b1, h1, h2⟩ := Except.bind_eq_ok.mp heq
    exact foldlM_keeps h (h b a b1 hb h1) h2

end
