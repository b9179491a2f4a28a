import VitalSE.KDAlloc.SizedRegions
import VitalSE.Lib.RingBuffer

/-!
# The large object allocator

Blocks of whole pages are cut out of the middle of the largest free region. A
freed block waits in a quarantine of fixed length, or for ever, before its
region is merged with the free regions on both sides.
-/

namespace VitalSE

namespace LargeObjectAllocator

structure Control where
  baseAddress : Nat
  size : Nat
  quarantineSize : Nat
  unlimitedQuarantine : Bool

def Control.initialize (baseAddress size : Nat) (unlimitedQuarantine : Bool)
    (quarantineSize : Nat) : Except Abort Control :=
  if size < 3 * 4096 then .error (.assertion "The LOH requires at least three pages")
  else .ok {
    baseAddress := baseAddress
    size := size
    -- the slot of the position counts
    quarantineSize := if unlimitedQuarantine || quarantineSize = 0 then 0
      else quarantineSize + 1
    unlimitedQuarantine := unlimitedQuarantine }

/-- The regions, and the addresses in quarantine, if there is one. Slot `i` of the
ring is slot `i + 1` of the source, whose slot 0 holds the position. -/
structure Data where
  regions : SizedRegions
  quarantine : Option (RingBuffer (Option Nat))

def emptyQuarantine (control : Control) : Option (RingBuffer (Option Nat)) :=
  if h : 0 < control.quarantineSize - 1 then
    some (.replicate (control.quarantineSize - 1) none h)
  else none

/-- The address that leaves the quarantine, if there is one. -/
def quarantine (data : Data) (ptr : Nat) : Option Nat × Data :=
  match data.quarantine with
  | none => (some ptr, data)
  | some ring =>
    let (released, ring) := ring.exchange (some ptr)
    (released, { data with quarantine := some ring })

/-- The data as a call of `allocate` finds it. -/
def acquire (control : Control) : Option Data → Except Abort Data
  | some data => .ok data
  | none => do
    let regions ← SizedRegions.empty.insert ⟨control.baseAddress, control.size⟩
    return ⟨regions, emptyQuarantine control⟩

/-- Cut a block of whole pages out of the middle of the largest region. -/
def place (regions : SizedRegions) (size : Nat) : Except Abort (Nat × SizedRegions) := do
  let node ← regions.getLargestRegion
  let rangeSize := node.size
  if Word.add rangeSize (2 * 4096) < size then
    throw (.assertion "Zero (or below) red zone size!")
  else
    let rangePos := node.baseAddress
    let offset := Word.roundUpToMultipleOf4096 (Word.sub rangeSize size / 2)
    -- left subrange
    let regions ← regions.resizeLargestRegion offset
    -- right subrange
    let regions ← regions.insert ⟨Word.add (Word.add rangePos offset) size,
      Word.sub (Word.sub rangeSize offset) size⟩
    return (Word.add rangePos offset, regions)

def allocate (control : Control) (data : Option Data) (size : Nat) :
    Except Abort (Nat × Data) := do
  let data ← acquire control data
  if size = 0 then throw (.assertion "size > 0")
  else
    let (address, regions) ← place data.regions (Word.roundUpToMultipleOf4096 size)
    return (address, { data with regions := regions })

def deallocate (control : Control) (data : Option Data) (ptr : Nat) :
    Except Abort Data := do
  match data with
  | none => throw (.assertion
      "Deallocations can only happen if allocations happened beforehand")
  | some data =>
    if control.unlimitedQuarantine then return data
    else
      match quarantine data ptr with
      | (none, data) => return data
      | (some ptr, data) =>
        return { data with regions := ← data.regions.mergeAroundAddress ptr }

end LargeObjectAllocator

/-! ## A client of the allocator -/

/-- A block that the client was given, with the size it asked for. -/
structure Block where
  address : Nat
  size : Nat
deriving DecidableEq

inductive LargeObjectOp
  | allocate (size : Nat)
  /-- Free the block at a place in the list of live blocks. -/
  | deallocate (i : Nat)

/-- The allocator, the blocks in use, and the freed ones that are in quarantine. -/
structure LargeObjects where
  data : Option LargeObjectAllocator.Data
  live : List Block
  quarantined : List Block

namespace LargeObjects

open LargeObjectAllocator

def create : LargeObjects := ⟨none, [], []⟩

/-- The address is in quarantine. -/
def inQuarantine (control : Control) (data : LargeObjectAllocator.Data) (address : Nat) :
    Bool :=
  control.unlimitedQuarantine ||
    data.quarantine.any fun ring => ring.slots.contains (some address)

def step (control : Control) (s : LargeObjects) : LargeObjectOp → Except Abort LargeObjects
  | .allocate size => do
    let (address, data) ← allocate control s.data size
    return { s with data := some data, live := ⟨address, size⟩ :: s.live }
  | .deallocate i =>
    match s.live[i]? with
    | none => .ok s
    | some block => do
      let data ← deallocate control s.data block.address
      return {
        data := some data
        live := s.live.eraseIdx i
        quarantined := (block :: s.quarantined).filter fun b =>
          inQuarantine control data b.address }

def run (control : Control) (ops : List LargeObjectOp) : Except Abort LargeObjects :=
  ops.foldlM (step control) create

end LargeObjects

end VitalSE
