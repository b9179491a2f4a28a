import VitalSE.KDAlloc.SizedRegions
import VitalSE.Lib.Bitmap
import VitalSE.Lib.CopyOnWrite
import VitalSE.Lib.RingBuffer
import VitalSE.Solver.ConstantDivision

/-!
# The slot allocator of a sized bin

A bin is cut into slots layer by layer: one slot in the middle, then one in the
middle of each half, and so on. A bitmap says which slots are free. Two fingers
bound the search in it, it grows on demand, and copies of an allocator share it
until one of them writes.

The bitmap, the fingers and the quarantine lie in one block of memory with a
count of the allocators that refer to it.
-/

namespace VitalSE

open RefCount (Ref Heap HeapM)

namespace SlotAllocator

structure Control where
  baseAddress : Nat
  size : Nat
  slotSize : Nat
  quarantineSize : Nat
  unlimitedQuarantine : Bool

def Control.initialize (baseAddress size slotSize : Nat) (unlimitedQuarantine : Bool)
    (quarantineSize : Nat) : Except Abort Control := do
  Abort.assert (size > 0 ∧ size &&& (size - 1) = 0)
    "Sizes of sized bins must be powers of two"
  return {
    baseAddress := baseAddress
    size := size
    slotSize := slotSize
    -- the slot of the position counts
    quarantineSize := if unlimitedQuarantine || quarantineSize = 0 then 0
      else quarantineSize + 1
    unlimitedQuarantine := unlimitedQuarantine }

namespace Control

def convertIndexToPosition (control : Control) (index : Nat) : Except Abort Nat := do
  let index := index + 1
  -- the digits of a word less the leading zeroes of the index
  let layer := index.log2 + 1
  let layerSlots := 1 <<< (layer - 1)
  let currentSlotSize := control.size >>> layer
  Abort.assert (currentSlotSize > control.slotSize) "Zero (or below) red zone size!"
  let highBit := 1 <<< (layer - 1)
  Abort.assert (index &&& highBit ≠ 0) "Failed to compute high bit"
  Abort.assert (index ^^^ highBit < highBit) "Failed to compute high bit"
  let layerIndex := index ^^^ highBit
  let layerIndex := if layerIndex % 2 = 0 then layerIndex / 2
    else layerSlots - 1 - layerIndex / 2
  Abort.assert (layerIndex < highBit) "Invalid tempering"
  return currentSlotSize * (layerIndex * 2 + 1)

def convertPositionToIndex (control : Control) (position : Nat) : Except Abort Nat := do
  let trailingZeroes ← (countTrailingZeroes (BitVec.ofNat 64 position)).mapError .assertion
  let sizeZeroes ← (countTrailingZeroes (BitVec.ofNat 64 control.size)).mapError .assertion
  if sizeZeroes ≤ trailingZeroes then throw (.undefined "shift by a negative amount")
  else
    let layer := sizeZeroes - trailingZeroes
    let layerSlots := 1 <<< (layer - 1)
    let highBit := 1 <<< (layer - 1)
    let layerIndex := position >>> (trailingZeroes + 1)
    Abort.assert (layerIndex < highBit) "Tempered value was not restored correctly"
    let layerIndex := if layerIndex < (layerSlots + 1) / 2 then layerIndex * 2
      else (layerSlots - 1 - layerIndex) * 2 + 1
    Abort.assert (layerIndex < highBit) "Invalid reverse tempering"
    return (highBit ^^^ layerIndex) - 1

end Control

/-- Slot `i` of the ring is slot `i + 1` of the source, whose slot 0 holds the
position; the bitmap has as many words as there is capacity for. -/
structure Data where
  firstFreeFinger : Nat
  lastUsedFinger : Int
  quarantine : Option (RingBuffer (Option Nat))
  bitmap : List (BitVec 64)

def Data.capacity (data : Data) : Nat := data.bitmap.length

abbrev SlotM := StateT (Heap Data) (Except Abort)

/-- An access to the shared memory. -/
def access {α : Type} (m : HeapM Data α) : SlotM α := fun heap =>
  (m heap).mapError fun
    | .dangling => .undefined "access to freed memory"
    | .outOfFuel => .outOfFuel

def emptyQuarantine (control : Control) : Option (RingBuffer (Option Nat)) :=
  if h : 0 < control.quarantineSize - 1 then
    some (.replicate (control.quarantineSize - 1) none h)
  else none

def computeNextCapacity (oldCapacity : Nat) : Except Abort Nat := do
  Abort.assert (oldCapacity < (2 ^ 63 - 1) / 8)
    ("oldCapacity < (std::numeric_limits<std::ptrdiff_t>::max)() / " ++
      "std::max<std::ptrdiff_t>(8, sizeof(std::uint64_t))")
  return max 8 (oldCapacity * 7 / 4)

/-! ## The fingers -/

def getFirstFree (data : Data) : Except Abort (Nat × Data) := do
  Abort.assert (data.firstFreeFinger ≤ data.capacity) "data->firstFreeFinger <= data->capacity"
  let used := (data.bitmap.drop data.firstFreeFinger).takeWhile (· = 0)
  let finger := data.firstFreeFinger + used.length
  Abort.assert (finger ≤ data.capacity) "data->firstFreeFinger <= data->capacity"
  return (finger, { data with firstFreeFinger := finger })

/-- Words of ones are passed over from the finger down. -/
def getLastUsed (data : Data) : Except Abort (Int × Data) := do
  Abort.assert (data.lastUsedFinger ≥ -1) "data->lastUsedFinger >= -1"
  Abort.assert (data.lastUsedFinger < data.capacity) "data->lastUsedFinger < data->capacity"
  let words := (data.bitmap.take (data.lastUsedFinger + 1).toNat).rdropWhile fun word =>
    ~~~word = 0
  let finger : Int := words.length - 1
  Abort.assert (finger ≥ -1) "data->lastUsedFinger >= -1"
  return (finger, { data with lastUsedFinger := finger })

/-! ## Sharing -/

/-- Data that no other allocator refers to. -/
def acquireData (self : Ref) : SlotM Ref := do
  let shared ← access (RefCount.cell self)
  if shared.references > 1 then
    -- the finger moves in the data that is shared
    let (lastUsed, data) ← getLastUsed shared.content
    access (RefCount.write self data)
    let used := (lastUsed + 1).toNat
    let newCapacity ← computeNextCapacity used
    let new ← access (RefCount.alloc { data with
      bitmap := data.bitmap.take used ++
        List.replicate (newCapacity - used) (BitVec.allOnes 64) })
    access (RefCount.decref (fun _ => []) self)
    return new
  else
    Abort.assert (shared.references = 1) "data->referenceCount == 1"
    return self

def releaseData (self : Option Ref) : SlotM Unit := do
  match self with
  | some self => access (RefCount.decref (fun _ => []) self)
  | none => return

/-! ## The bitmap -/

def setFree (self : Ref) (index : Nat) : SlotM Ref := do
  let loc := index / 64
  let shift := index % 64
  let data ← access (RefCount.read self)
  Abort.assert ((loc : Int) ≤ data.lastUsedFinger) "loc <= data->lastUsedFinger"
  Abort.assert (data.lastUsedFinger < data.capacity) "data->lastUsedFinger < data->capacity"
  let self ← acquireData self
  let data ← access (RefCount.read self)
  let word := Bitmap.word data.bitmap loc
  let mask := 1#64 <<< shift
  Abort.assert (word &&& mask = 0) "(word & mask) == 0"
  let word := word ^^^ mask
  access (RefCount.write self { data with
    bitmap := data.bitmap.set loc word
    lastUsedFinger := if ~~~word = 0 ∧ (loc : Int) = data.lastUsedFinger then (loc : Int) - 1
      else data.lastUsedFinger
    firstFreeFinger := if loc < data.firstFreeFinger then loc else data.firstFreeFinger })
  return self

/-- The lowest set bit of the word is cleared; the words before it are zero. -/
def setLowestToUsed (self : Ref) (loc : Nat) : SlotM (Nat × Ref) := do
  let shared ← access (RefCount.cell self)
  let data := shared.content
  Abort.assert (shared.references = 1) "data->referenceCount == 1"
  Abort.assert (loc < data.capacity) "loc < data->capacity"
  let word := Bitmap.word data.bitmap loc
  let shift ← (countTrailingZeroes word).mapError Abort.assertion
  let mask := 1#64 <<< shift
  Abort.assert (word &&& mask = mask) "(word & mask) == mask"
  let word := word ^^^ mask
  access (RefCount.write self { data with
    bitmap := data.bitmap.set loc word
    firstFreeFinger := if word = 0 ∧ data.firstFreeFinger = loc then loc + 1
      else data.firstFreeFinger
    lastUsedFinger := if (loc : Int) > data.lastUsedFinger then (loc : Int)
      else data.lastUsedFinger })
  return (loc * 64 + shift, self)

def setFirstFreeToUsed (control : Control) : Option Ref → SlotM (Nat × Ref)
  | none => do
    let newCapacity ← computeNextCapacity 0
    let self ← access (RefCount.alloc {
      firstFreeFinger := 0
      lastUsedFinger := -1
      quarantine := emptyQuarantine control
      bitmap := List.replicate newCapacity (BitVec.allOnes 64) })
    setLowestToUsed self 0
  | some self => do
    let shared ← access (RefCount.cell self)
    let (loc, data) ← getFirstFree shared.content
    access (RefCount.write self data)
    if loc = data.capacity ∧ shared.references = 1 then
      let newCapacity ← computeNextCapacity data.capacity
      access (RefCount.write self { data with
        bitmap := data.bitmap ++
          List.replicate (newCapacity - data.capacity) (BitVec.allOnes 64) })
      setLowestToUsed self loc
    else
      let self ← acquireData self
      let data ← access (RefCount.read self)
      Abort.assert (loc < data.capacity)
        "acquire_data performs a growth step in the sense of \x60computeNextCapacity\x60"
      setLowestToUsed self loc

/-! ## The interface -/

def allocate (control : Control) (self : Option Ref) : SlotM (Nat × Ref) := do
  let (index, self) ← setFirstFreeToUsed control self
  let position ← control.convertIndexToPosition index
  return (control.baseAddress + position, self)

/-- The position that leaves the quarantine, if there is one. -/
def quarantine (self : Ref) (pos : Nat) : SlotM (Option Nat) := do
  let shared ← access (RefCount.cell self)
  match shared.content.quarantine with
  | none => return some pos
  | some ring =>
    Abort.assert (shared.references = 1) "Must hold CoW ownership to quarantine a new index"
    let (released, ring) := ring.exchange (some pos)
    access (RefCount.write self { shared.content with quarantine := some ring })
    return released

def deallocate (control : Control) (self : Option Ref) (ptr : Nat) : SlotM Ref := do
  match self with
  | none => throw (.assertion
      "Deallocations can only happen if allocations happened beforehand")
  | some self =>
    let pos := ptr - control.baseAddress
    let self ← acquireData self
    match ← quarantine self pos with
    | none => return self
    | some pos =>
      Abort.assert (pos < control.size) "pos < control.size"
      setFree self (← control.convertPositionToIndex pos)

/-- The copy constructor. -/
def copy (rhs : Option Ref) : SlotM (Option Ref) := do
  match rhs with
  | none => return none
  | some rhs =>
    let self ← access (RefCount.incref rhs)
    let shared ← access (RefCount.cell self)
    Abort.assert (shared.references > 1) "data->referenceCount > 1"
    return some self

/-- The assignment operator. -/
def assign (self rhs : Option Ref) : SlotM (Option Ref) := do
  if self = rhs then return self
  else
    releaseData self
    copy rhs

end SlotAllocator

/-! ## Allocators that are copied -/

/-- What is done to some of `n` allocators. The copy constructor is the assignment to
an allocator that has no data. -/
inductive SlotOp (n : Nat)
  | allocate (i : Fin n)
  /-- Free the block at a place in the list of live blocks. -/
  | deallocate (i : Fin n) (k : Nat)
  | assign (i j : Fin n)
  | destroy (i : Fin n)

/-- An allocator, and the addresses that are in use. -/
structure SlotOwner where
  data : Option Ref
  live : List Nat

structure SlotOwners (n : Nat) where
  heap : Heap SlotAllocator.Data
  owners : Fin n → SlotOwner

namespace SlotOwners

open SlotAllocator

variable {n : Nat}

def create : SlotOwners n := ⟨⟨fun _ => none, 0⟩, fun _ => ⟨none, []⟩⟩

def set (s : SlotOwners n) (heap : Heap SlotAllocator.Data) (i : Fin n) (owner : SlotOwner) :
    SlotOwners n := ⟨heap, Function.update s.owners i owner⟩

def step (control : Control) (s : SlotOwners n) : SlotOp n → Except Abort (SlotOwners n)
  | .allocate i => do
    let ((address, self), heap) ← allocate control (s.owners i).data s.heap
    return s.set heap i ⟨some self, address :: (s.owners i).live⟩
  | .deallocate i k =>
    match (s.owners i).live[k]? with
    | none => .ok s
    | some address => do
      let (self, heap) ← deallocate control (s.owners i).data address s.heap
      return s.set heap i ⟨some self, (s.owners i).live.eraseIdx k⟩
  | .assign i j => do
    let (data, heap) ← assign (s.owners i).data (s.owners j).data s.heap
    return s.set heap i ⟨data, (s.owners j).live⟩
  | .destroy i => do
    let (_, heap) ← releaseData (s.owners i).data s.heap
    return s.set heap i ⟨none, []⟩

def run (control : Control) (ops : List (SlotOp n)) : Except Abort (SlotOwners n) :=
  ops.foldlM (step control) create

end SlotOwners

end VitalSE
