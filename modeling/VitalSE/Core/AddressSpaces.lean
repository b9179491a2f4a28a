import VitalSE.Core.AddressSpace

/-!
# Copies of address spaces

A state that forks copies its address space. The copies share the object states
and a key tells who may write to one in place: the copy constructor gives both
sides the next key, so that neither owns what they share from then on.

`Spaces` is a set of address spaces, numbered in the order in which they were
created, with the object states they refer to. A step is one operation on one
of them.
-/

namespace VitalSE

structure Spaces where
  objects : ObjectHeap
  constArrays : Nat
  space : Nat → AddressSpace
  /-- How many address spaces there are. -/
  count : Nat

namespace Spaces

/-- One address space, and no objects. -/
def initial : Spaces where
  objects := ⟨fun _ => ⟨0, fun _ => 0, none, none, none, none, .null, 0, false,
    empty_lt_size⟩, 0⟩
  constArrays := 0
  space _ := ⟨1, []⟩
  count := 1

inductive Step where
  /-- Copy an address space. -/
  | copy (i : Nat)
  /-- Construct an object state. -/
  | new (os : ObjectState)
  | bind (i : Nat) (mo : MemoryObject) (os : Nat)
  | unbind (i : Nat) (mo : MemoryObject)
  /-- Write to an object of an address space, through `getWriteable`. -/
  | write (i : Nat) (mo : MemoryObject) (offset value : Expr)
  | read (i : Nat) (mo : MemoryObject) (offset : Expr) (width : Nat)

def setSpace (s : Spaces) (i : Nat) (as : AddressSpace) : Spaces :=
  { s with space := Function.update s.space i as }

variable (constArrayOpt : Bool) (ctx : Context)

/-- The object state that an address space has for an object. -/
def lookup (s : Spaces) (i : Nat) (mo : MemoryObject) : Except Abort Nat :=
  match (s.space i).findObject mo with
  | some os => return os
  | none => throw (.undefined "null object state")

def writeStep (s : Spaces) (i : Nat) (mo : MemoryObject) (offset value : Expr) :
    Except Abort Spaces := do
  let os ← s.lookup i mo
  let ((as, wos), h) ← ((s.space i).getWriteable mo os) s.objects
  let obj ← (h.heap wos).write constArrayOpt ctx offset value
  return { s.setSpace i as with objects := h.store wos obj }

def readStep (s : Spaces) (i : Nat) (mo : MemoryObject) (offset : Expr)
    (width : Nat) : Except Abort Spaces := do
  let os ← s.lookup i mo
  let (_, obj, constArrays) ← ObjectState.read constArrayOpt ctx offset width
    (s.objects.heap os, s.constArrays)
  return { s with
    objects := s.objects.store os obj
    constArrays := constArrays }

def bindStep (s : Spaces) (i : Nat) (mo : MemoryObject) (os : Nat) :
    Except Abort Spaces :=
  if os < s.objects.nextObject then do
    let (as, h) ← ((s.space i).bindObject mo os) s.objects
    return { s.setSpace i as with objects := h }
  else throw (.undefined "dangling object state")

def step (s : Spaces) : Step → Except Abort Spaces
  | .new os => return { s with
      objects := s.objects.alloc { os with copyOnWriteOwner := 0 } }
  | .copy i =>
    if i < s.count then
      return { (s.setSpace i (s.space i).copy).setSpace s.count
        (s.space i).copy with count := s.count + 1 }
    else throw (.undefined "dangling address space")
  | .bind i mo os =>
    if i < s.count then s.bindStep i mo os
    else throw (.undefined "dangling address space")
  | .unbind i mo =>
    if i < s.count then return s.setSpace i ((s.space i).unbindObject mo)
    else throw (.undefined "dangling address space")
  | .write i mo offset value =>
    if i < s.count then s.writeStep constArrayOpt ctx i mo offset value
    else throw (.undefined "dangling address space")
  | .read i mo offset width =>
    if i < s.count then s.readStep constArrayOpt ctx i mo offset width
    else throw (.undefined "dangling address space")

def run (s : Spaces) (steps : List Step) : Except Abort Spaces :=
  steps.foldlM (step constArrayOpt ctx) s

end Spaces

end VitalSE
