import Mathlib.Algebra.Order.Ring.Int

/-!
# Numbers in a query

The parser of queries reads a number token with as many bits as its digits may
need, negates it there and then brings it to the width that is asked for. So a
negative number with fewer bits than that is not sign-extended.
-/

namespace VitalSE.Parser

def digit (char : Char) : Option Nat :=
  if '0' ≤ char ∧ char ≤ '9' then some (char.toNat - '0'.toNat)
  else if 'a' ≤ char ∧ char ≤ 'z' then some (char.toNat - 'a'.toNat + 10)
  else if 'A' ≤ char ∧ char ≤ 'Z' then some (char.toNat - 'A'.toNat + 10)
  else none

def readDigits {w : Nat} (radix : Nat) (val : BitVec w) : List Char → Except String (BitVec w)
  | [] => .ok val
  | '_' :: s => readDigits radix val s
  | char :: s =>
    match digit char with
    | none => .error "invalid character in numeric token."
    | some d =>
      if radix ≤ d then .error "invalid character in numeric token (out of range)."
      else readDigits radix (val * BitVec.ofNat w radix + BitVec.ofNat w d) s

inductive Radix
  | binary
  | octal
  | decimal
  | hexadecimal
deriving DecidableEq

namespace Radix

def number : Radix → Nat
  | binary => 2
  | octal => 8
  | decimal => 10
  | hexadecimal => 16

def bits : Radix → Nat
  | binary => 1
  | octal => 3
  | decimal | hexadecimal => 4

def start : Radix → List Char
  | binary => ['0', 'b']
  | octal => ['0', 'o']
  | decimal => []
  | hexadecimal => ['0', 'x']

end Radix

/-- Detect `0[box]`. -/
def detectRadix : List Char → Radix × List Char
  | '0' :: 'b' :: s => (.binary, s)
  | '0' :: 'o' :: s => (.octal, s)
  | '0' :: 'x' :: s => (.hexadecimal, s)
  | s => (.decimal, s)

def parseUnsigned (type : Nat) (hasMinus : Bool) (s : List Char) : Except String (BitVec type) := do
  let (radix, s) := detectRadix s
  if radix ≠ .decimal ∧ s = [] then throw "invalid numeric token (no digits)."
  let val ← readDigits radix.number (0#(radix.bits * s.length % 2 ^ 32)) s
  return (if hasMinus then -val else val).setWidth type

def parseNumberToken (type : Nat) : List Char → Except String (BitVec type)
  | '+' :: s => parseUnsigned type false s
  | '-' :: s => parseUnsigned type true s
  | s => parseUnsigned type false s

/-- `ParseIntegerConstant`, for a width of at most 64 bits. -/
def parseIntegerConstant (type : Nat) (s : List Char) : Except String Nat :=
  (parseNumberToken type s).map BitVec.toNat

/-! ## Literals -/

inductive Sign
  | none
  | plus
  | minus
deriving DecidableEq

def Sign.text : Sign → List Char
  | none => []
  | plus => ['+']
  | minus => ['-']

/-- The digits and underscores after the radix. -/
def Radix.Body (radix : Radix) (body : List Char) : Prop :=
  ∀ c ∈ body, c = '_' ∨ ∃ d < radix.number, digit c = some d

/-- The number with the digits of `body` after those of `n`. -/
def Radix.append (radix : Radix) (n : Nat) (body : List Char) : Nat :=
  (body.filterMap digit).foldl (fun n d => n * radix.number + d) n

/-- A literal of the grammar. The length of a token is an `unsigned`. -/
structure Literal where
  sign : Sign
  radix : Radix
  body : List Char
  nonempty : body ≠ []
  wellFormed : radix.Body body
  length_lt : (sign.text ++ (radix.start ++ body)).length < 2 ^ 32

namespace Literal

variable (l : Literal)

def text : List Char := l.sign.text ++ (l.radix.start ++ l.body)

def magnitude : Nat := l.radix.append 0 l.body

def value : Int := if l.sign = .minus then -l.magnitude else l.magnitude

/-- The bits that the parser counts for the digits. -/
def bits : Nat := l.radix.bits * l.body.length % 2 ^ 32

end Literal

/-! ## Reading a literal -/

variable {w : Nat} {radix : Radix} {body : List Char}

theorem readDigits_eq (hb : radix.Body body) (n : Nat) :
    readDigits radix.number (BitVec.ofNat w n) body =
      .ok (BitVec.ofNat w (radix.append n body)) := by
  induction body generalizing n with
  | nil => rfl
  | cons c body ih =>
    obtain ⟨hc, hbody⟩ := List.forall_mem_cons.mp hb
    obtain rfl | ⟨d, hd, hdigit⟩ := hc
    · exact ih hbody n
    · rw [readDigits, hdigit, Radix.append, List.filterMap_cons_some hdigit, List.foldl_cons]
      · simp only
        rw [if_neg (by omega), ← BitVec.ofNat_mul, ← BitVec.ofNat_add]
        exact ih hbody _
      · rintro rfl
        cases hdigit

theorem detectRadix_eq (hb : radix.Body body) :
    detectRadix (radix.start ++ body) = (radix, body) := by
  cases radix with
  | decimal =>
    show detectRadix body = _
    unfold detectRadix
    split
    · exact absurd (hb 'b' (by simp)) (by decide)
    · exact absurd (hb 'o' (by simp)) (by decide)
    · exact absurd (hb 'x' (by simp)) (by decide)
    · rfl
  | _ => rfl

theorem parseNumberToken_eq (sign : Sign) (type : Nat) (hb : radix.Body body) :
    parseNumberToken type (sign.text ++ (radix.start ++ body)) =
      parseUnsigned type (sign = .minus) (radix.start ++ body) := by
  cases sign with
  | none =>
    cases radix with
    | decimal =>
      show parseNumberToken type body = _
      unfold parseNumberToken
      split
      · exact absurd (hb '+' (by simp)) (by decide)
      · exact absurd (hb '-' (by simp)) (by decide)
      · rfl
    | _ => rfl
  | _ => rfl

/-- A number goes through `w` bits if it has no more than those. -/
theorem setWidth_ofInt_iff {type : Nat} (v : Int) :
    (BitVec.ofInt w v).setWidth type = BitVec.ofInt type v ↔ v % 2 ^ type < 2 ^ w := by
  have hpos (n : Nat) : (0 : Int) < 2 ^ n := Int.pow_pos (by decide)
  have hnonneg (n : Nat) : 0 ≤ v % 2 ^ n := Int.emod_nonneg v (hpos n).ne'
  have hlt (n : Nat) : v % 2 ^ n < 2 ^ n := Int.emod_lt_of_pos v (hpos n)
  rw [← BitVec.toNat_inj, BitVec.toNat_setWidth, BitVec.toNat_ofInt, BitVec.toNat_ofInt,
    ← Int.natCast_inj]
  push_cast [Int.toNat_of_nonneg (hnonneg _)]
  rcases Nat.le_total type w with hle | hle
  · rw [Int.emod_emod_of_dvd v (pow_dvd_pow 2 hle)]
    exact iff_of_true rfl ((hlt type).trans_le (pow_le_pow_right₀ (by decide) hle))
  · rw [Int.emod_eq_of_lt (hnonneg w) ((hlt w).trans_le (pow_le_pow_right₀ (by decide) hle))]
    refine ⟨fun heq => heq ▸ hlt w, fun h => ?_⟩
    rw [← Int.emod_emod_of_dvd v (pow_dvd_pow 2 hle), Int.emod_eq_of_lt (hnonneg type) h]

theorem parseIntegerConstant_eq_ok {type : Nat} {s : List Char} {v : BitVec type} :
    parseIntegerConstant type s = .ok v.toNat ↔ parseNumberToken type s = .ok v := by
  unfold parseIntegerConstant
  cases parseNumberToken type s with
  | error e => exact ⟨nofun, nofun⟩
  | ok u => simp [Except.map, BitVec.toNat_inj]

/-- A literal gives its value just if the value, reduced to the width, has no more bits
than are counted for the digits. -/
theorem Literal.parses_iff (l : Literal) (type : Nat) :
    (parseNumberToken type l.text = .ok (BitVec.ofInt type l.value) ↔
      l.value % 2 ^ type < 2 ^ l.bits) ∧
    (parseIntegerConstant type l.text = .ok (BitVec.ofInt type l.value).toNat ↔
      l.value % 2 ^ type < 2 ^ l.bits) := by
  rw [parseIntegerConstant_eq_ok, and_self]
  rw [text, parseNumberToken_eq _ _ l.wellFormed, parseUnsigned, detectRadix_eq l.wellFormed]
  simp only [if_neg (not_and_of_not_right _ l.nonempty)]
  rw [readDigits_eq l.wellFormed]
  show Except.ok _ = _ ↔ _
  rw [Except.ok.injEq, ← setWidth_ofInt_iff, value, bits]
  by_cases hminus : l.sign = .minus
  · simp [hminus, magnitude, BitVec.ofInt_neg]
  · simp [hminus, magnitude]

/-- `-1` with eight bits is `15`. -/
theorem parseNumberToken_minus_one : ∃ l : Literal, l.text = ['-', '1'] ∧ l.value = -1 ∧
    parseNumberToken 8 l.text = .ok 15#8 :=
  ⟨⟨.minus, .decimal, ['1'], by decide,
    List.forall_mem_singleton.mpr (.inr ⟨1, by decide, rfl⟩), by decide⟩, rfl, rfl,
    by decide +kernel⟩

end VitalSE.Parser
