import VitalSE.Expr.Constraints

/-!
# Memory objects and their contents

A `MemoryObject` is a range of addresses. An `ObjectState` is what one state
believes its bytes to be. Each byte may be cached, as a concrete byte or as an
expression, and the caches of the bytes marked unflushed are newer than the
list of updates; a symbolic offset may mean any byte, so before such a read all
unflushed caches are flushed to the updates, and before such a write they are
also dropped. While there is no root array the updates are over an array of
zeros, which is only created when it is needed.

The arrays of the source are functions of the offset here, and a missing one
is `none`, as its null pointer is.
-/

namespace VitalSE

@[ext]
structure MemoryObject where
  id : Nat
  address : Nat
  size : Nat
  address_lt : address < 2 ^ 64
  size_lt : size < 2 ^ 32

theorem page_lt_address : 4096 < 2 ^ 64 := by decide

theorem empty_lt_size : 0 < 2 ^ 32 := by decide

instance : DecidableEq MemoryObject := fun _ _ =>
  decidable_of_iff _ MemoryObject.ext_iff.symm

/-- `Expr::getMinBytesForWidth`. -/
def getMinBytesForWidth (width : Nat) : Nat := (width + 7) / 8

/-- The data layout of the target. -/
structure Context where
  pointerWidth : Nat
  littleEndian : Bool

namespace MemoryObject

variable (constArrayOpt : Bool) (ctx : Context) (mo : MemoryObject)

def getBaseExpr : Expr := Expr.const mo.address ctx.pointerWidth

def getSizeExpr : Expr := Expr.const mo.size ctx.pointerWidth

def getOffsetExpr (pointer : Expr) : Expr :=
  SubExpr.create constArrayOpt pointer (mo.getBaseExpr ctx)

/-- `getBoundsCheckOffset`: the offset is one of the object, or the object is
empty and the offset is zero. -/
def getBoundsCheckOffset (offset : Expr) : Expr :=
  if mo.size = 0 then
    EqExpr.create constArrayOpt offset (Expr.const 0 ctx.pointerWidth)
  else UltExpr.create constArrayOpt offset (mo.getSizeExpr ctx)

/-- `getBoundsCheckOffset` for an access of some bytes. -/
def getBoundsCheckOffsetBytes (offset : Expr) (bytes : Nat) : Expr :=
  if bytes ≤ mo.size then
    UltExpr.create constArrayOpt offset
      (Expr.const (mo.size - bytes + 1) ctx.pointerWidth)
  else Expr.const 0 1

def getBoundsCheckPointer (pointer : Expr) : Expr :=
  mo.getBoundsCheckOffset constArrayOpt ctx
    (mo.getOffsetExpr constArrayOpt ctx pointer)

def getBoundsCheckPointerBytes (pointer : Expr) (bytes : Nat) : Expr :=
  mo.getBoundsCheckOffsetBytes constArrayOpt ctx
    (mo.getOffsetExpr constArrayOpt ctx pointer) bytes

end MemoryObject

structure ObjectState where
  copyOnWriteOwner : Nat
  concreteStore : Nat → BitVec 8
  concreteMask : Option (Nat → Bool)
  knownSymbolics : Option (Nat → Option Expr)
  unflushedMask : Option (Nat → Bool)
  root : Option Array
  head : UpdateNode
  size : Nat
  readOnly : Bool
  size_lt : size < 2 ^ 32

/-- What works on an object state: it may change it, and may create constant
arrays, which are numbered. -/
abbrev ObjectM := StateT (ObjectState × Nat) (Except Abort)

/-- The newest `n` writes of a list of updates, the oldest of them first. -/
def UpdateNode.newest : UpdateNode → (n : Nat) → List (Expr × Expr)
  | .node next index value, n + 1 => next.newest n ++ [(index, value)]
  | _, _ => []

namespace ObjectState

variable (os : ObjectState) (offset : Nat)

/-- The copy constructor. -/
def copy : Except Abort ObjectState :=
  if os.readOnly then
    throw (.assertion "no need to copy read only object?")
  else return { os with copyOnWriteOwner := 0, readOnly := false }

/-! ## Caches -/

def isByteConcrete : Bool :=
  match os.concreteMask with
  | none => true
  | some mask => mask offset

def isByteUnflushed : Bool :=
  match os.unflushedMask with
  | none => true
  | some mask => mask offset

def knownSymbolic : Option Expr :=
  match os.knownSymbolics with
  | none => none
  | some known => known offset

def isByteKnownSymbolic : Bool := (os.knownSymbolic offset).isSome

def markByteConcrete : ObjectState :=
  match os.concreteMask with
  | none => os
  | some mask =>
    { os with concreteMask := some (Function.update mask offset true) }

def markByteSymbolic : ObjectState :=
  let mask := os.concreteMask.getD fun _ => true
  { os with concreteMask := some (Function.update mask offset false) }

def markByteUnflushed : ObjectState :=
  match os.unflushedMask with
  | none => os
  | some mask =>
    { os with unflushedMask := some (Function.update mask offset true) }

/-- The first byte marked flushed makes a mask in which all bytes are. -/
def markByteFlushed : ObjectState :=
  match os.unflushedMask with
  | none => { os with unflushedMask := some fun _ => false }
  | some mask =>
    { os with unflushedMask := some (Function.update mask offset false) }

def setKnownSymbolic (value : Option Expr) : ObjectState :=
  match os.knownSymbolics, value with
  | some known, _ =>
    { os with knownSymbolics := some (Function.update known offset value) }
  | none, some _ =>
    { os with
      knownSymbolics := some (Function.update (fun _ => none) offset value) }
  | none, none => os

/-! ## Updates -/

/-- `UpdateList::extend`, which checks the widths once there is a root. -/
def extend (index value : Expr) : Except Abort ObjectState :=
  if os.root.isSome && index.getWidth != Array.domain then
    throw (.assertion "root->getDomain() == index->getWidth()")
  else if os.root.isSome && value.getWidth != Array.range then
    throw (.assertion "root->getRange() == value->getWidth()")
  else return { os with head := .node os.head index value }

def extendAll (writes : List (Expr × Expr)) : Except Abort ObjectState :=
  writes.foldlM (fun os w => os.extend w.1 w.2) os

/-- Push concrete writes into the constant array, as long as they are the
oldest ones. -/
def pullConcrete : List (BitVec 8) → List (Expr × Expr) →
    List (BitVec 8) × List (Expr × Expr)
  | contents, (.constant index, .constant value) :: writes =>
    pullConcrete (contents.set index.toNat (value.bits.setWidth 8)) writes
  | contents, writes => (contents, writes)

theorem pullConcrete_length (contents : List (BitVec 8))
    (writes : List (Expr × Expr)) :
    (pullConcrete contents writes).1.length = contents.length := by
  fun_induction pullConcrete contents writes with
  | case1 contents index value writes ih => simpa using ih
  | case2 => rfl

/-- The writes that `getUpdates` collects, as many as the newest one counts. -/
def collectWrites : List (Expr × Expr) := os.head.newest os.head.getSize.toNat

/-- The constant array with the contents that the oldest writes leave. -/
def constantArray (id : Nat) : Array where
  address := id
  name := "const_arr" ++ toString id
  size := os.size
  constantValues :=
    (pullConcrete (List.replicate os.size 0) os.collectWrites).1
  size_lt := os.size_lt
  values_size := .inr (by simp [pullConcrete_length])

/-- `getUpdates`: the root and the updates, with the constant array created
when there is no root. -/
def getUpdates : ObjectM (Array × UpdateNode) := do
  let (os, id) ← get
  match os.root with
  | some root => return (root, os.head)
  | none =>
    let array := os.constantArray (id + 1)
    let rest := (pullConcrete (List.replicate os.size 0) os.collectWrites).2
    -- apply the remaining (non-constant) writes
    let os' ← liftM (extendAll { os with root := some array, head := .null }
      rest)
    set (os', id + 1)
    return (array, os'.head)

/-! ## Flushing -/

/-- The update that flushes one byte. -/
def flushByte : Except Abort ObjectState :=
  if os.isByteConcrete offset then
    os.extend (Expr.const offset 32) (.constant ⟨8, os.concreteStore offset⟩)
  else match os.knownSymbolic offset with
    | some e => os.extend (Expr.const offset 32) e
    | none => throw (.assertion "invalid bit set in unflushedMask")

/-- One step of `flushRangeForRead`. -/
def flushByteForRead : Except Abort ObjectState :=
  if os.isByteUnflushed offset then do
    return (← os.flushByte offset).markByteFlushed offset
  else return os

/-- Drop the cached value of a byte. -/
def dropCache : ObjectState :=
  if os.isByteConcrete offset then os.markByteSymbolic offset
  else if os.isByteKnownSymbolic offset then os.setKnownSymbolic offset none
  else os

/-- One step of `flushRangeForWrite`. -/
def flushByteForWrite : Except Abort ObjectState :=
  if os.isByteUnflushed offset then do
    return ((← os.flushByte offset).dropCache offset).markByteFlushed offset
  else return os.dropCache offset

/-- Both ranges start from a mask that marks every byte unflushed. -/
def startFlush : ObjectState :=
  match os.unflushedMask with
  | none => { os with unflushedMask := some fun _ => true }
  | some _ => os

def flushRangeForRead (rangeBase rangeSize : Nat) : Except Abort ObjectState :=
  (List.range' rangeBase rangeSize).foldlM flushByteForRead os.startFlush

def flushRangeForWrite (rangeBase rangeSize : Nat) : Except Abort ObjectState :=
  (List.range' rangeBase rangeSize).foldlM flushByteForWrite os.startFlush

/-- The bytes that an offset may mean. -/
def fastRangeCheckOffset (_offset : Expr) : Nat × Nat := (0, os.size)

/-! ## Bytes -/

def read8 (constArrayOpt : Bool) (offset : Nat) : ObjectM Expr := do
  let (os, _) ← get
  if os.isByteConcrete offset then
    return .constant ⟨8, os.concreteStore offset⟩
  else match os.knownSymbolic offset with
    | some e => return e
    | none =>
      if os.isByteUnflushed offset then
        throw (.assertion "unflushed byte without cache value")
      else
        let (root, head) ← getUpdates
        return ReadExpr.create constArrayOpt root head (Expr.const offset 32)

def read8Symbolic (constArrayOpt : Bool) (offset : Expr) : ObjectM Expr := do
  if offset.isConstant then
    throw (.assertion "constant offset passed to symbolic read8")
  else
    let (os, id) ← get
    let (base, size) := os.fastRangeCheckOffset offset
    let os' ← os.flushRangeForRead base size
    set (os', id)
    let (root, head) ← getUpdates
    return ReadExpr.create constArrayOpt root head (ZExtExpr.create offset 32)

def write8Concrete (value : BitVec 8) : ObjectState :=
  let os := { os with
    concreteStore := Function.update os.concreteStore offset value }
  ((os.setKnownSymbolic offset none).markByteConcrete offset).markByteUnflushed
    offset

/-- `write8` of an expression at a constant offset. -/
def write8 (value : Expr) : ObjectState :=
  match value with
  | .constant c => os.write8Concrete offset (c.bits.setWidth 8)
  | _ => ((os.setKnownSymbolic offset (some value)).markByteSymbolic
      offset).markByteUnflushed offset

def write8Symbolic (offset value : Expr) : Except Abort ObjectState :=
  if offset.isConstant then
    throw (.assertion "constant offset passed to symbolic write8")
  else do
    let (base, size) := os.fastRangeCheckOffset offset
    let os' ← os.flushRangeForWrite base size
    os'.extend (ZExtExpr.create offset 32) value

/-! ## Values of several bytes -/

/-- The position of the byte `i` of a value of `n` bytes, the least significant
byte first. -/
def byteIndex (ctx : Context) (n i : Nat) : Nat :=
  if ctx.littleEndian then i else n - i - 1

/-- The first bytes of a value, joined. -/
def readBytes (readByte : Nat → ObjectM Expr) : Nat → ObjectM (Option Expr)
  | 0 => return none
  | i + 1 => do
    let res ← readBytes readByte i
    let byte ← readByte i
    return some (match res with
      | none => byte
      | some res => ConcatExpr.create byte res)

/-- The slow general case of both forms of `read`, given how a byte is read and
the text of the assertion. -/
def readSlow (ctx : Context) (message : String)
    (readByte : Nat → ObjectM Expr) (width : Nat) : ObjectM Expr := do
  let numBytes := width / 8
  if width ≠ numBytes * 8 then throw (.assertion message)
  else match ← readBytes (readByte ∘ byteIndex ctx numBytes) numBytes with
    | some res => return res
    | none => throw (.undefined "null expression")

/-- `read` at a constant offset. Bool is the only width that need not be one of
whole bytes. -/
def readConstant (constArrayOpt : Bool) (ctx : Context) (offset width : Nat) :
    ObjectM Expr := do
  if width = 1 then
    return ExtractExpr.create (← read8 constArrayOpt offset) 0 1
  else
    readSlow ctx "Invalid width for read size!"
      (fun idx => read8 constArrayOpt ((offset + idx) % 2 ^ 32)) width

def read (constArrayOpt : Bool) (ctx : Context) (offset : Expr) (width : Nat) :
    ObjectM Expr := do
  match ZExtExpr.create offset 32 with
  | .constant c => readConstant constArrayOpt ctx c.toNat width
  | offset =>
    if width = 1 then
      return ExtractExpr.create (← read8Symbolic constArrayOpt offset) 0 1
    else
      readSlow ctx "Invalid read size!" (fun idx =>
        read8Symbolic constArrayOpt
          (AddExpr.create constArrayOpt offset (Expr.const idx 32))) width

/-- `write16`, `write32` and `write64`. -/
def writeConcrete (ctx : Context) (numBytes value : Nat) : ObjectState :=
  (List.range numBytes).foldl (fun os i =>
    os.write8Concrete ((offset + byteIndex ctx numBytes i) % 2 ^ 32)
      (BitVec.ofNat 8 (value >>> (8 * i)))) os

/-- `write` of an expression at a constant offset, after the constants of the
usual widths. -/
def writeExpr (ctx : Context) (value : Expr) : Except Abort ObjectState :=
  let w := value.getWidth
  if w = 1 then return os.write8 offset (ZExtExpr.create value 8)
  else
    let numBytes := w / 8
    if w ≠ numBytes * 8 then throw (.assertion "Invalid write size!")
    else return (List.range numBytes).foldl (fun os i =>
      os.write8 ((offset + byteIndex ctx numBytes i) % 2 ^ 32)
        (ExtractExpr.create value (8 * i) 8)) os

/-- `write` at a constant offset. -/
def writeConstant (ctx : Context) (value : Expr) : Except Abort ObjectState :=
  match value with
  | .constant c =>
    if c.width ≤ 64 ∧ c.width &&& (c.width - 1) = 0 then
      match c.width with
      | 1 | 8 => return os.write8Concrete offset (BitVec.ofNat 8 c.toNat)
      | 16 => return os.writeConcrete offset ctx 2 c.toNat
      | 32 => return os.writeConcrete offset ctx 4 c.toNat
      | 64 => return os.writeConcrete offset ctx 8 c.toNat
      | _ => throw (.assertion "Invalid write size!")
    else os.writeExpr offset ctx value
  | _ => os.writeExpr offset ctx value

def write (constArrayOpt : Bool) (ctx : Context) (offset value : Expr) :
    Except Abort ObjectState :=
  match ZExtExpr.create offset 32 with
  | .constant c => os.writeConstant c.toNat ctx value
  | offset =>
    let w := value.getWidth
    if w = 1 then os.write8Symbolic offset (ZExtExpr.create value 8)
    else
      let numBytes := w / 8
      if w ≠ numBytes * 8 then throw (.assertion "Invalid write size!")
      else (List.range numBytes).foldlM (fun os i => os.write8Symbolic
        (AddExpr.create constArrayOpt offset
          (Expr.const (byteIndex ctx numBytes i) 32))
        (ExtractExpr.create value (8 * i) 8)) os

/-! ## New objects -/

def makeConcrete : ObjectState :=
  { os with concreteMask := none, unflushedMask := none, knownSymbolics := none }

def makeSymbolic : Except Abort ObjectState :=
  match os.head with
  | .node .. => throw (.assertion
      "XXX makeSymbolic of objects with symbolic values is unsupported")
  | .null => return (List.range os.size).foldl (fun os i =>
    ((os.markByteSymbolic i).setKnownSymbolic i none).markByteFlushed i) os

def initializeToZero : ObjectState :=
  { os.makeConcrete with concreteStore := fun _ => 0 }

def initializeToRandom : ObjectState :=
  { os.makeConcrete with concreteStore := fun _ => 0xAB }

/-- The root of a concrete object, when constant arrays are not used. -/
def tmpArray (mo : MemoryObject) (id : Nat) : Array where
  address := id
  name := "tmp_arr" ++ toString id
  size := mo.size
  constantValues := []
  size_lt := mo.size_lt
  values_size := .inl rfl

/-- The object state of an object, with the number of arrays so far. -/
def ofObject (useConstantArrays : Bool) (mo : MemoryObject) (id : Nat) :
    ObjectState where
  copyOnWriteOwner := 0
  concreteStore _ := 0
  concreteMask := none
  knownSymbolics := none
  unflushedMask := none
  root := if useConstantArrays then none else some (tmpArray mo (id + 1))
  head := .null
  size := mo.size
  readOnly := false
  size_lt := mo.size_lt

/-- The object state of an object whose bytes are those of an array. -/
def ofArray (mo : MemoryObject) (array : Array) : Except Abort ObjectState :=
  makeSymbolic
    { copyOnWriteOwner := 0
      concreteStore := fun _ => 0
      concreteMask := none
      knownSymbolics := none
      unflushedMask := none
      root := some array
      head := .null
      size := mo.size
      readOnly := false
      size_lt := mo.size_lt }

end ObjectState

/-! ## Sequences of accesses -/

inductive Access where
  | read (offset : Expr) (width : Nat)
  | write (offset value : Expr)

namespace ObjectState

variable (constArrayOpt : Bool) (ctx : Context)

/-- An access, with the result of a read. -/
def access : Access → ObjectM (Option Expr)
  | .read offset width => return some (← read constArrayOpt ctx offset width)
  | .write offset value => do
    let (os, id) ← get
    let os' ← liftM (os.write constArrayOpt ctx offset value)
    set (os', id)
    return none

def accesses : List Access → ObjectM (List (Option Expr))
  | [] => return []
  | a :: rest => do
    let r ← access constArrayOpt ctx a
    return r :: (← accesses rest)

end ObjectState

end VitalSE
