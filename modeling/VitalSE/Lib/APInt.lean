import Mathlib.Data.BitVec

/-!
# Bit-vectors that carry their width

An arbitrary-precision integer in the sense of the compiler library: a width
chosen at run time and that many bits. Every binary operation is only meant
for two operands of one width; on operands of different widths the right one is
resized, so that the operations are total and a caller who has matching widths
never meets the resize.

The laws are stated at a fixed width, on `⟨w, x⟩`: a proof about values first
names the bits of each operand (`exists_bits`) and is then a fact about
`BitVec w`, where the library has the algebra.
-/

/-- A word together with its width. -/
structure APInt where
  width : Nat
  bits : BitVec width
deriving DecidableEq, Repr

namespace APInt

variable {off : Nat}

/-- The unsigned value, as `getZExtValue` gives it for any width. -/
def toNat (a : APInt) : Nat := a.bits.toNat

/-- The number, cut to the width. -/
def ofNat (w n : Nat) : APInt := ⟨w, BitVec.ofNat w n⟩

def ofBool (b : Bool) : APInt := ⟨1, BitVec.ofBool b⟩

def isZero (a : APInt) : Bool := a.bits == 0#a.width

def isOne (a : APInt) : Bool := a.toNat == 1

def isAllOnes (a : APInt) : Bool := a.bits == BitVec.allOnes a.width

/-- An operation on two operands of one width, at the width of the left. -/
def lift₂ (f : (w : Nat) → BitVec w → BitVec w → BitVec w) (a b : APInt) :
    APInt :=
  ⟨a.width, f a.width a.bits (b.bits.setWidth a.width)⟩

/-- The same for an operation that may have no result. -/
def lift₂? (f : (w : Nat) → BitVec w → BitVec w → Option (BitVec w))
    (a b : APInt) : Option APInt :=
  (f a.width a.bits (b.bits.setWidth a.width)).map (APInt.mk a.width)

/-- A comparison of two operands of one width; its result has one bit. -/
def liftCmp (f : (w : Nat) → BitVec w → BitVec w → Bool) (a b : APInt) :
    APInt :=
  ofBool (f a.width a.bits (b.bits.setWidth a.width))

def add : APInt → APInt → APInt := lift₂ fun _ x y => x + y
def sub : APInt → APInt → APInt := lift₂ fun _ x y => x - y
def mul : APInt → APInt → APInt := lift₂ fun _ x y => x * y
def udiv : APInt → APInt → APInt := lift₂ fun _ x y => x / y
def sdiv : APInt → APInt → APInt := lift₂ fun _ x y => x.sdiv y
def urem : APInt → APInt → APInt := lift₂ fun _ x y => x % y
def srem : APInt → APInt → APInt := lift₂ fun _ x y => x.srem y
def and : APInt → APInt → APInt := lift₂ fun _ x y => x &&& y
def or : APInt → APInt → APInt := lift₂ fun _ x y => x ||| y
def xor : APInt → APInt → APInt := lift₂ fun _ x y => x ^^^ y

-- A shift by the width or more empties the word; the arithmetic shift then
-- leaves the sign bit in every place.
def shl : APInt → APInt → APInt := lift₂ fun _ x y => x <<< y.toNat
def lshr : APInt → APInt → APInt := lift₂ fun _ x y => x >>> y.toNat
def ashr : APInt → APInt → APInt := lift₂ fun _ x y => x.sshiftRight y.toNat

def eq : APInt → APInt → APInt := liftCmp fun _ x y => x == y
def ult : APInt → APInt → APInt := liftCmp fun _ x y => x.ult y
def ule : APInt → APInt → APInt := liftCmp fun _ x y => x.ule y
def slt : APInt → APInt → APInt := liftCmp fun _ x y => x.slt y
def sle : APInt → APInt → APInt := liftCmp fun _ x y => x.sle y

def not (a : APInt) : APInt := ⟨a.width, ~~~a.bits⟩

/-- The left operand is the high part. -/
def concat (a b : APInt) : APInt := ⟨a.width + b.width, a.bits ++ b.bits⟩

/-- The `w` bits from bit `off` on. -/
def extract (a : APInt) (off w : Nat) : APInt :=
  ⟨w, a.bits.extractLsb' off w⟩

/-- Another width, filled with zeros. -/
def zextOrTrunc (a : APInt) (w : Nat) : APInt := ⟨w, a.bits.setWidth w⟩

/-- Another width, filled with the sign. -/
def sextOrTrunc (a : APInt) (w : Nat) : APInt := ⟨w, a.bits.signExtend w⟩

/-- A shift by a number of places. -/
def shlBy (a : APInt) (n : Nat) : APInt := ⟨a.width, a.bits <<< n⟩

/-- A shift to the right that keeps the sign. -/
def ashrBy (a : APInt) (n : Nat) : APInt := ⟨a.width, a.bits.sshiftRight n⟩

/-! ## The operations on named bits -/

theorem exists_bits {a : APInt} {w : Nat} (h : a.width = w) :
    ∃ x : BitVec w, a = ⟨w, x⟩ := by
  subst h
  exact ⟨a.bits, rfl⟩

theorem mk_inj {w : Nat} {x y : BitVec w} :
    (⟨w, x⟩ : APInt) = ⟨w, y⟩ ↔ x = y := by
  simp

variable {w : Nat} (x y : BitVec w)

@[simp] theorem lift₂_mk (f : (w : Nat) → BitVec w → BitVec w → BitVec w) :
    lift₂ f ⟨w, x⟩ ⟨w, y⟩ = ⟨w, f w x y⟩ := by
  simp [lift₂]

@[simp] theorem lift₂?_mk
    (f : (w : Nat) → BitVec w → BitVec w → Option (BitVec w)) :
    lift₂? f ⟨w, x⟩ ⟨w, y⟩ = (f w x y).map (APInt.mk w) := by
  simp [lift₂?]

@[simp] theorem liftCmp_mk (f : (w : Nat) → BitVec w → BitVec w → Bool) :
    liftCmp f ⟨w, x⟩ ⟨w, y⟩ = ofBool (f w x y) := by
  simp [liftCmp]

@[simp] theorem sub_mk : sub ⟨w, x⟩ ⟨w, y⟩ = ⟨w, x - y⟩ := lift₂_mk ..

@[simp] theorem isZero_mk : (APInt.mk w x).isZero = true ↔ x = 0 := by
  simp [isZero]

/-! ## Truncating what was extended -/

theorem setWidth_signExtend {u : Nat} (h : w ≤ u) :
    (x.signExtend u).setWidth w = x := by
  ext i hi
  have hu : i < u := by omega
  simp [BitVec.getElem_signExtend, hi, hu]

theorem setWidth_zeroExtend {u : Nat} (h : w ≤ u) :
    (x.setWidth u).setWidth w = x := by
  rw [BitVec.setWidth_setWidth_of_le _ h, BitVec.setWidth_eq]

/-! ## Parts of a word -/

variable {u v : Nat} (x : BitVec u) (y : BitVec v)

theorem setWidth_sshiftRight (h : off + w ≤ u) :
    (x.sshiftRight off).setWidth w = x.extractLsb' off w := by
  apply BitVec.eq_of_getLsbD_eq
  intro i hi
  rw [BitVec.getLsbD_setWidth, BitVec.getLsbD_sshiftRight,
    BitVec.getLsbD_extractLsb', if_pos (by omega)]
  simp [hi, show ¬u ≤ i by omega]

theorem shiftLeft_or_eq_append :
    (x.setWidth (u + v) <<< v) ||| y.setWidth (u + v) = x ++ y := by
  apply BitVec.eq_of_getLsbD_eq
  intro i hi
  rw [BitVec.getLsbD_or, BitVec.getLsbD_shiftLeft, BitVec.getLsbD_setWidth,
    BitVec.getLsbD_setWidth, BitVec.getLsbD_append]
  by_cases h : i < v
  · simp [h, hi]
  · simp [h, hi, BitVec.getLsbD_of_ge y i (by omega)]
    omega

end APInt
