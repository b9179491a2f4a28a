import Mathlib.Algebra.BigOperators.Group.List.Basic
import Mathlib.Algebra.Ring.Nat

/-!
# Time spans

A span is given as a text such as `3h4min`. Its parts are read one after the other
as 64-bit numbers, scaled to nanoseconds and added up in signed 64-bit arithmetic.
A number that does not fit in 64 bits ends the program, like a text in no format.
The old format, a decimal number of seconds, is left out.
-/

namespace VitalSE.Time

inductive TimeUnit
  | h
  | min
  | s
  | ms
  | us
  | ns

namespace TimeUnit

def text : TimeUnit → List Char
  | h => ['h']
  | min => ['m', 'i', 'n']
  | s => ['s']
  | ms => ['m', 's']
  | us => ['u', 's']
  | ns => ['n', 's']

/-- The nanoseconds of one unit. -/
def ticks : TimeUnit → Nat
  | h => 3600 * 10 ^ 9
  | min => 60 * 10 ^ 9
  | s => 10 ^ 9
  | ms => 10 ^ 6
  | us => 10 ^ 3
  | ns => 1

end TimeUnit

/-- The matches of `([0-9]+)(h|min|s|ms|us|ns)` in a text in the unit format, with the
digits that were already seen. -/
def search (digits : List Char) : List Char → List (List Char × TimeUnit)
  | 'h' :: suffix => (digits, .h) :: search [] suffix
  | 'm' :: 'i' :: 'n' :: suffix => (digits, .min) :: search [] suffix
  | 's' :: suffix => (digits, .s) :: search [] suffix
  | 'm' :: 's' :: suffix => (digits, .ms) :: search [] suffix
  | 'u' :: 's' :: suffix => (digits, .us) :: search [] suffix
  | 'n' :: 's' :: suffix => (digits, .ns) :: search [] suffix
  | c :: suffix => search (digits ++ [c]) suffix
  | [] => []

/-- The number that the digits stand for. -/
def number (digits : List Char) : Nat :=
  digits.foldl (fun n c => 10 * n + (c.toNat - '0'.toNat)) 0

def stoull (digits : List Char) : Option Nat :=
  if number digits < 2 ^ 64 then some (number digits) else none

/-- A signed 64-bit number. -/
def wrap (n : Int) : Int := n.bmod (2 ^ 64)

def addParts (duration : Int) : List (List Char × TimeUnit) → Option Int
  | [] => some duration
  | (digits, unit) :: parts => do
    let value ← stoull digits
    let d := wrap (wrap value * unit.ticks)
    addParts (wrap (duration + d)) parts

/-- The constructor for a text in the unit format. -/
def span (s : List Char) : Option Int := addParts 0 (search [] s)

/-! ## What the text says -/

/-- A part of a text in the unit format. -/
structure Part where
  digits : List Char
  unit : TimeUnit
  nonempty : digits ≠ []
  digit : ∀ c ∈ digits, '0' ≤ c ∧ c ≤ '9'

def Part.text (p : Part) : List Char := p.digits ++ p.unit.text

def Part.ticks (p : Part) : Nat := number p.digits * p.unit.ticks

def total (ps : List Part) : Nat := (ps.map Part.ticks).sum

/-! ## The sum -/

theorem search_digits {ds : List Char} (hd : ∀ c ∈ ds, '0' ≤ c ∧ c ≤ '9')
    (digits rest : List Char) : search digits (ds ++ rest) = search (digits ++ ds) rest := by
  induction ds generalizing digits with
  | nil => simp
  | cons c ds ih =>
    obtain ⟨hc, hds⟩ := List.forall_mem_cons.mp hd
    have hstep : search digits (c :: (ds ++ rest)) = search (digits ++ [c]) (ds ++ rest) := by
      rw [search]
      all_goals
        intros
        subst_vars
        exact absurd hc (by decide)
    rw [List.cons_append, hstep, ih hds, List.append_assoc]
    rfl

theorem search_text (ps : List Part) :
    search [] (ps.flatMap Part.text) = ps.map fun p => (p.digits, p.unit) := by
  induction ps with
  | nil => rfl
  | cons p ps ih =>
    rw [List.flatMap_cons, Part.text, List.append_assoc, search_digits p.digit, List.map_cons, ← ih]
    cases p.unit <;> rfl

theorem addParts_eq (ps : List Part) (n : Int) :
    addParts (wrap n) (ps.map fun p => (p.digits, p.unit)) =
      if ∀ p ∈ ps, number p.digits < 2 ^ 64 then some (wrap (n + total ps)) else none := by
  induction ps generalizing n with
  | nil => simp [addParts, total]
  | cons p ps ih =>
    have hadd : wrap (wrap n + wrap (wrap (number p.digits) * p.unit.ticks)) =
        wrap (n + p.ticks) := by
      simp [wrap, Part.ticks]
    rw [List.map_cons, addParts, stoull]
    by_cases hp : number p.digits < 2 ^ 64
    · rw [if_pos hp]
      show addParts (wrap (wrap n + wrap (wrap (number p.digits) * p.unit.ticks))) _ = _
      simp only [hadd, ih, List.forall_mem_cons, hp, true_and]
      simp [total, add_assoc]
    · rw [if_neg hp, if_neg fun h => hp (h p List.mem_cons_self)]
      rfl

/-- A text is rejected or gives the exact sum, if and only if a number is too large to be
read or the sum is below `2 ^ 63` nanoseconds. -/
theorem span_exact_iff (ps : List Part) :
    (∀ d, span (ps.flatMap Part.text) = some d → d = total ps) ↔
      (∃ p ∈ ps, 2 ^ 64 ≤ number p.digits) ∨ total ps < 2 ^ 63 := by
  have hrun := addParts_eq ps 0
  rw [span, search_text, show addParts 0 _ = _ from hrun, zero_add]
  split_ifs with hread
  · have hnot : ¬∃ p ∈ ps, 2 ^ 64 ≤ number p.digits := fun ⟨p, hp, hn⟩ =>
      absurd (hread p hp) (by omega)
    simp only [or_iff_right hnot, Option.some.injEq, forall_eq']
    have hlt := Int.bmod_lt (x := total ps) (m := 2 ^ 64) (by decide)
    refine ⟨fun heq => ?_, fun h => Int.bmod_eq_of_le (by omega) (by omega)⟩
    rw [wrap] at heq
    omega
  · simp only [not_forall, Nat.not_lt, exists_prop] at hread
    exact iff_of_true (by simp) (.inl hread)

/-- Ten million hours are more than the clock holds. -/
theorem span_wraps :
    span "10000000h".toList = some (-893488147419103232) := by
  decide

end VitalSE.Time
