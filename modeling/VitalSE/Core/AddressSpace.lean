import VitalSE.Core.Memory
import VitalSE.Solver.Solver

/-!
# The address space of a state

`TimingSolver` is how the executor asks the solver: it answers constant queries
and simplifies the others with the constraints first. An address space maps the
memory objects of a state, in the order of their addresses, to object states,
which several states may share; a key says which of them the state owns.

Resolving a pointer asks the solver for a value of it and searches the objects
downwards from there and then upwards, until the pointer is certainly not below
(or not above) the object at hand.
-/

namespace VitalSE

/-! ## Asking the solver -/

structure TimingSolver (S : Type) where
  solver : SolverImpl S
  simplifyExprs : Bool
  constArrayOpt : Bool

namespace TimingSolver

variable {S : Type} (t : TimingSolver S) (constraints : List Expr)

def simplify (expr : Expr) : SolverM S Expr :=
  if t.simplifyExprs then
    liftM (ConstraintManager.simplifyExprBounded t.constArrayOpt constraints
      expr)
  else return expr

def evaluate (expr : Expr) : SolverM S (Option Validity) := do
  match expr with
  | .constant c =>
    return some (if ConstantExpr.isTrue c then .true else .false)
  | _ =>
    let expr ← t.simplify constraints expr
    Solver.evaluate t.solver ⟨constraints, expr⟩

def mustBeTrue (expr : Expr) : SolverM S (Option Bool) := do
  match expr with
  | .constant c => return some (ConstantExpr.isTrue c)
  | _ =>
    let expr ← t.simplify constraints expr
    Solver.mustBeTrue t.solver ⟨constraints, expr⟩

def mustBeFalse (expr : Expr) : SolverM S (Option Bool) :=
  t.mustBeTrue constraints (expr.createIsZero t.constArrayOpt)

def mayBeTrue (expr : Expr) : SolverM S (Option Bool) := do
  match ← t.mustBeFalse constraints expr with
  | none => return none
  | some res => return some (!res)

def getValue (expr : Expr) : SolverM S (Option APInt) := do
  match expr with
  | .constant c => return some c
  | _ =>
    let expr ← t.simplify constraints expr
    Solver.getValue t.solver ⟨constraints, expr⟩

def getInitialValues (objects : List Array) :
    SolverM S (Option (List (List (BitVec 8)))) :=
  if objects.isEmpty then return some []
  else Solver.getInitialValues t.solver ⟨constraints, .const 0 1⟩ objects

end TimingSolver

/-- `flushToConcreteStore` at some offsets of the object. It gives the offsets
that it warns about, for which the solver had no value. -/
def ObjectState.flushBytes {S : Type} (t : TimingSolver S) (constraints : List Expr) :
    List Nat → StateT ((ObjectState × Nat) × S) (Except Abort) (List Nat)
  | [] => return []
  | i :: is => do
    let (object, s) ← get
    if object.1.isByteKnownSymbolic i then
      let (e, os, id) ← liftM (read8 t.constArrayOpt i object)
      let (value, s) ← liftM (t.getValue constraints e s)
      match value with
      | none =>
        set ((os, id), s)
        return i :: (← flushBytes t constraints is)
      | some ce =>
        let store := Function.update os.concreteStore i (ce.bits.setWidth 8)
        set (({ os with concreteStore := store }, id), s)
        flushBytes t constraints is
    else flushBytes t constraints is

def ObjectState.flushToConcreteStore {S : Type} (t : TimingSolver S)
    (constraints : List Expr) :
    StateT ((ObjectState × Nat) × S) (Except Abort) (List Nat) := do
  let (object, _) ← get
  flushBytes t constraints (List.range object.1.size)

/-! ## Objects -/

/-- An object and a reference to its state. -/
abbrev ObjectPair := MemoryObject × Nat

structure AddressSpace where
  cowKey : Nat
  objects : List ObjectPair

namespace AddressSpace

variable (as : AddressSpace)

def findObject (mo : MemoryObject) : Option Nat :=
  (as.objects.find? (·.1.address == mo.address)).map (·.2)

/-- The objects up to an address, and those above it: `upper_bound` stands
between them, and the last of the first is `lookup_previous`. -/
def splitAt (address : Nat) : List ObjectPair × List ObjectPair :=
  as.objects.span fun op => op.1.address ≤ address

def lookupPrevious (address : Nat) : Option ObjectPair :=
  (as.splitAt address).1.getLast?

/-- `replace` of the ordered map, whose keys are compared by address. -/
def replaceObject (op : ObjectPair) : List ObjectPair → List ObjectPair
  | [] => [op]
  | op' :: rest =>
    if op.1.address < op'.1.address then op :: op' :: rest
    else if op.1.address = op'.1.address then op :: rest
    else op' :: replaceObject op rest

/-- The copy constructor changes the key of both. -/
def copy : AddressSpace := { as with cowKey := as.cowKey + 1 }

/-- `resolveOne` of a constant address. -/
def resolveConstant (address : Nat) : Option ObjectPair :=
  match as.lookupPrevious address with
  | some (mo, os) =>
    if (mo.size = 0 ∧ address = mo.address) ∨
        address - mo.address < mo.size then some (mo, os)
    else none
  | none => none

section

variable {S : Type} (ctx : Context) (t : TimingSolver S)
  (constraints : List Expr) (address : Expr)

/-- The backward search of `resolveOne`: `none` when a query failed, and
`some none` when nothing was found. -/
def resolveOneBackward : List ObjectPair → SolverM S (Option (Option ObjectPair))
  | [] => return some none
  | (mo, os) :: rest => do
    match ← t.mayBeTrue constraints
        (mo.getBoundsCheckPointer t.constArrayOpt ctx address) with
    | none => return none
    | some true => return some (some (mo, os))
    | some false =>
      match ← t.mustBeTrue constraints (UgeExpr.create t.constArrayOpt address
          (mo.getBaseExpr ctx)) with
      | none => return none
      | some true => return some none
      | some false => resolveOneBackward rest

/-- The forward search of `resolveOne`. -/
def resolveOneForward : List ObjectPair → SolverM S (Option (Option ObjectPair))
  | [] => return some none
  | (mo, os) :: rest => do
    match ← t.mustBeTrue constraints (UltExpr.create t.constArrayOpt address
        (mo.getBaseExpr ctx)) with
    | none => return none
    | some true => return some none
    | some false =>
      match ← t.mayBeTrue constraints
          (mo.getBoundsCheckPointer t.constArrayOpt ctx address) with
      | none => return none
      | some true => return some (some (mo, os))
      | some false => resolveOneForward rest

/-- An object that the pointer may be in. -/
def resolveOne : SolverM S (Option (Option ObjectPair)) := do
  match address with
  | .constant c => return some (as.resolveConstant c.toNat)
  | _ =>
    match ← t.getValue constraints address with
    | none => return none
    | some cex =>
      let search : SolverM S (Option (Option ObjectPair)) := do
        let (before, after) := as.splitAt cex.toNat
        match ← resolveOneBackward ctx t constraints address before.reverse with
        | none => return none
        | some (some op) => return some (some op)
        | some none => resolveOneForward ctx t constraints address after
      -- try cheap search, will succeed for any inbounds pointer
      match as.lookupPrevious cex.toNat with
      | some (mo, os) =>
        if cex.toNat - mo.address < mo.size then return some (some (mo, os))
        else search
      | none => search

/-- What `checkPointerInObject` tells its caller. -/
inductive PointerCheck where
  | complete
  | incomplete
  | unresolved
deriving DecidableEq

def checkPointerInObject (op : ObjectPair) (rl : List ObjectPair)
    (maxResolutions : Nat) : SolverM S (PointerCheck × List ObjectPair) := do
  let inBounds := op.1.getBoundsCheckPointer t.constArrayOpt ctx address
  match ← t.mayBeTrue constraints inBounds with
  | none => return (.incomplete, rl)
  | some false => return (.unresolved, rl)
  | some true =>
    let rl := rl ++ [op]
    -- fast path check
    if rl.length = 1 then
      match ← t.mustBeTrue constraints inBounds with
      | none => return (.incomplete, rl)
      | some true => return (.complete, rl)
      | some false => return (.unresolved, rl)
    else if rl.length = maxResolutions then return (.incomplete, rl)
    else return (.unresolved, rl)

/-- The backward search of `resolve`, with `unresolved` when the search is to
go on forwards. -/
def resolveBackward (maxResolutions : Nat) : List ObjectPair →
    List ObjectPair → SolverM S (PointerCheck × List ObjectPair)
  | [], rl => return (.unresolved, rl)
  | (mo, os) :: rest, rl => do
    match ← checkPointerInObject ctx t constraints address (mo, os) rl
        maxResolutions with
    | (.unresolved, rl) =>
      match ← t.mustBeTrue constraints (UgeExpr.create t.constArrayOpt address
          (mo.getBaseExpr ctx)) with
      | none => return (.incomplete, rl)
      | some true => return (.unresolved, rl)
      | some false => resolveBackward maxResolutions rest rl
    | r => return r

def resolveForward (maxResolutions : Nat) : List ObjectPair →
    List ObjectPair → SolverM S (PointerCheck × List ObjectPair)
  | [], rl => return (.complete, rl)
  | (mo, os) :: rest, rl => do
    match ← t.mustBeTrue constraints (UltExpr.create t.constArrayOpt address
        (mo.getBaseExpr ctx)) with
    | none => return (.incomplete, rl)
    | some true => return (.complete, rl)
    | some false =>
      match ← checkPointerInObject ctx t constraints address (mo, os) rl
          maxResolutions with
      | (.unresolved, rl) => resolveForward maxResolutions rest rl
      | r => return r

/-- `resolve`, without its timeout: the objects the pointer may point to, and
whether the list is incomplete. -/
def resolve (maxResolutions : Nat) : SolverM S (Bool × List ObjectPair) := do
  match address with
  | .constant c => return (false, (as.resolveConstant c.toNat).toList)
  | _ =>
    match ← t.getValue constraints address with
    | none => return (true, [])
    | some cex =>
      let (before, after) := as.splitAt cex.toNat
      match ← resolveBackward ctx t constraints address maxResolutions
          before.reverse [] with
      | (.unresolved, rl) =>
        let (r, rl) ← resolveForward ctx t constraints address maxResolutions
          after rl
        return (r = .incomplete, rl)
      | (r, rl) => return (r = .incomplete, rl)

end

end AddressSpace

/-! ## Object states in memory -/

/-- The object states that exist, by reference. -/
structure ObjectHeap where
  heap : Nat → ObjectState
  /-- The first free reference. -/
  nextObject : Nat

abbrev HeapM := StateT ObjectHeap (Except Abort)

namespace ObjectHeap

def store (h : ObjectHeap) (os : Nat) (obj : ObjectState) : ObjectHeap :=
  { h with heap := Function.update h.heap os obj }

def alloc (h : ObjectHeap) (obj : ObjectState) : ObjectHeap :=
  { heap := Function.update h.heap h.nextObject obj
    nextObject := h.nextObject + 1 }

end ObjectHeap

namespace AddressSpace

variable (as : AddressSpace)

def bindObject (mo : MemoryObject) (os : Nat) : HeapM AddressSpace := do
  let h ← get
  if (h.heap os).copyOnWriteOwner ≠ 0 then
    throw (.assertion "object already has owner")
  else
    set (h.store os { h.heap os with copyOnWriteOwner := as.cowKey })
    return { as with objects := replaceObject (mo, os) as.objects }

/-- The map compares its keys by address. -/
def unbindObject (mo : MemoryObject) : AddressSpace :=
  { as with objects := as.objects.filter (·.1.address ≠ mo.address) }

/-- The address space and a reference to an object state that it owns: the one
at hand, or a copy of it. -/
def getWriteable (mo : MemoryObject) (os : Nat) : HeapM (AddressSpace × Nat) := do
  let h ← get
  if (h.heap os).readOnly then throw (.assertion "!os->readOnly")
  else if as.cowKey = (h.heap os).copyOnWriteOwner then return (as, os)
  else
    let copy ← liftM (h.heap os).copy
    set (h.alloc { copy with copyOnWriteOwner := as.cowKey })
    return ({ as with objects := replaceObject (mo, h.nextObject) as.objects },
      h.nextObject)

/-! ## Concrete memory for external calls

`memory` is the memory of the process, where external code runs. Whether an
object is one that the user placed is a property of the object; such objects
are left to the user. -/

variable (isUserSpecified : MemoryObject → Bool)

/-- Copy the concrete store of an object to the memory at its address. -/
def copyOutConcrete (mo : MemoryObject) (os : ObjectState)
    (memory : Nat → BitVec 8) : Nat → BitVec 8 :=
  fun a => if mo.address ≤ a ∧ a < mo.address + mo.size then
    os.concreteStore (a - mo.address) else memory a

def copyOutConcretes (h : ObjectHeap) (memory : Nat → BitVec 8) :
    Nat → BitVec 8 :=
  as.objects.foldl (fun memory (mo, os) =>
    if !isUserSpecified mo && !(h.heap os).readOnly && (h.heap os).size != 0 then
      copyOutConcrete mo (h.heap os) memory
    else memory) memory

/-- Whether the memory at an address differs from the concrete store. -/
def concreteDiffers (mo : MemoryObject) (os : ObjectState)
    (memory : Nat → BitVec 8) (srcAddress : Nat) : Bool :=
  (List.range mo.size).any fun i => memory (srcAddress + i) != os.concreteStore i

/-- The concrete store becomes what is in memory. Nothing else of the object
state changes. -/
def takeConcrete (mo : MemoryObject) (memory : Nat → BitVec 8)
    (srcAddress : Nat) (os : ObjectState) : ObjectState :=
  { os with concreteStore := fun i =>
      if i < mo.size then memory (srcAddress + i) else os.concreteStore i }

def copyInConcrete (mo : MemoryObject) (os : Nat) (memory : Nat → BitVec 8)
    (srcAddress : Nat) : HeapM (Bool × AddressSpace) := do
  let h ← get
  if concreteDiffers mo (h.heap os) memory srcAddress then
    if (h.heap os).readOnly then return (false, as)
    else
      let (as, wos) ← as.getWriteable mo os
      modify fun h => h.store wos (takeConcrete mo memory srcAddress (h.heap wos))
      return (true, as)
  else return (true, as)

/-- The loop of `copyInConcretes`, over the objects there were at its start. -/
def copyInLoop (memory : Nat → BitVec 8) :
    List ObjectPair → AddressSpace → HeapM (Bool × AddressSpace)
  | [], as => return (true, as)
  | (mo, os) :: rest, as =>
    if isUserSpecified mo then copyInLoop memory rest as
    else do
      match ← as.copyInConcrete mo os memory mo.address with
      | (false, as) => return (false, as)
      | (true, as) => copyInLoop memory rest as

def copyInConcretes (memory : Nat → BitVec 8) : HeapM (Bool × AddressSpace) :=
  copyInLoop isUserSpecified memory as.objects as

end AddressSpace

end VitalSE
