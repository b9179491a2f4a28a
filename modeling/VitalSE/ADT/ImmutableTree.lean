import VitalSE.Lib.RefCount

/-!
# The persistent balanced tree

Versions of a tree share their nodes. An operation copies the nodes on its path,
counts a reference for each subtree it shares, and gives up what it no longer
needs; a node is freed with its last reference.

The type of the keys, the order and the key of a value are parameters, as in the
source. All empty subtrees are one node, the terminator, which is its own child.
-/

namespace VitalSE

open RefCount

/-- A node without its reference count, which is kept beside it. -/
structure ImmutableNode (V : Type) where
  left : Ref
  right : Ref
  value : V
  height : Nat

namespace ImmutableNode

variable {V : Type}

def children (n : ImmutableNode V) : List Ref := [n.left, n.right]

def terminator : Ref := 0

def isTerminator (n : Ref) : Bool := n == terminator

/-- The terminator. Its value is what `popMin` and `popMax` of an empty tree give. -/
def terminatorNode [Inhabited V] : ImmutableNode V := ⟨terminator, terminator, default, 0⟩

end ImmutableNode

abbrev TreeM (V : Type) := HeapM (ImmutableNode V)

namespace TreeM

open ImmutableNode

variable {K V : Type}

/-- Two of the three references of the terminator are its own children. -/
def initial [Inhabited V] : Heap (ImmutableNode V) where
  cells := Function.update (fun _ => none) terminator (some ⟨terminatorNode, 3⟩)
  next := 1

def newNode (left right : Ref) (value : V) : TreeM V Ref := do
  alloc ⟨left, right, value, max (← read left).height (← read right).height + 1⟩

def decref (n : Ref) : TreeM V Unit := RefCount.decref children n

def balance (left : Ref) (value : V) (right : Ref) : TreeM V Ref := do
  let l ← read left
  let r ← read right
  if l.height > r.height + 2 then
    let ll := l.left
    let lr := l.right
    if (← read ll).height ≥ (← read lr).height then
      let nlr ← newNode (← incref lr) right value
      let res ← newNode (← incref ll) nlr l.value
      decref left
      return res
    else
      let lrNode ← read lr
      let nll ← newNode (← incref ll) (← incref lrNode.left) l.value
      let nlr ← newNode (← incref lrNode.right) right value
      let res ← newNode nll nlr lrNode.value
      decref left
      return res
  else if r.height > l.height + 2 then
    let rl := r.left
    let rr := r.right
    if (← read rr).height ≥ (← read rl).height then
      let nrl ← newNode left (← incref rl) value
      let res ← newNode nrl (← incref rr) r.value
      decref right
      return res
    else
      let rlNode ← read rl
      let nrl ← newNode left (← incref rlNode.left) value
      let nrr ← newNode (← incref rlNode.right) (← incref rr) r.value
      let res ← newNode nrl nrr rlNode.value
      decref right
      return res
  else newNode left right value

/-- The least value and the tree without it. -/
def popMin : Nat → Ref → TreeM V (V × Ref)
  | 0, _ => throw .outOfFuel
  | fuel + 1, n => do
    let node ← read n
    if isTerminator node.left then return (node.value, ← incref node.right)
    else
      let (valueOut, left) ← popMin fuel node.left
      return (valueOut, ← balance left node.value (← incref node.right))

def popMax : Nat → Ref → TreeM V (V × Ref)
  | 0, _ => throw .outOfFuel
  | fuel + 1, n => do
    let node ← read n
    if isTerminator node.right then return (node.value, ← incref node.left)
    else
      let (valueOut, right) ← popMax fuel node.right
      return (valueOut, ← balance (← incref node.left) node.value right)

section Keys

variable (key_compare : K → K → Bool) (key_of_value : V → K)

def insert (v : V) : Nat → Ref → TreeM V Ref
  | 0, _ => throw .outOfFuel
  | fuel + 1, n => do
    if isTerminator n then newNode (← incref terminator) (← incref terminator) v
    else
      let node ← read n
      if key_compare (key_of_value v) (key_of_value node.value) then
        balance (← insert v fuel node.left) node.value (← incref node.right)
      else if key_compare (key_of_value node.value) (key_of_value v) then
        balance (← incref node.left) node.value (← insert v fuel node.right)
      else incref n

def replace (v : V) : Nat → Ref → TreeM V Ref
  | 0, _ => throw .outOfFuel
  | fuel + 1, n => do
    if isTerminator n then newNode (← incref terminator) (← incref terminator) v
    else
      let node ← read n
      if key_compare (key_of_value v) (key_of_value node.value) then
        balance (← replace v fuel node.left) node.value (← incref node.right)
      else if key_compare (key_of_value node.value) (key_of_value v) then
        balance (← incref node.left) node.value (← replace v fuel node.right)
      else newNode (← incref node.left) (← incref node.right) v

def remove (k : K) : Nat → Ref → TreeM V Ref
  | 0, _ => throw .outOfFuel
  | fuel + 1, n => do
    if isTerminator n then incref n
    else
      let node ← read n
      if key_compare k (key_of_value node.value) then
        balance (← remove k fuel node.left) node.value (← incref node.right)
      else if key_compare (key_of_value node.value) k then
        balance (← incref node.left) node.value (← remove k fuel node.right)
      else if isTerminator node.left then incref node.right
      else if isTerminator node.right then incref node.left
      else
        let (min, nr) ← popMin fuel node.right
        balance (← incref node.left) min nr

end Keys

end TreeM

/-! ## Versions

A client holds any number of versions and works on any of them. -/

/-- The calls a client makes. An operation on a version adds one; the client may
copy a version and destroy one. -/
inductive TreeOp (K V : Type)
  | insert (version : Nat) (value : V)
  | replace (version : Nat) (value : V)
  | remove (version : Nat) (key : K)
  | popMin (version : Nat)
  | popMax (version : Nat)
  | copy (version : Nat)
  | destroy (version : Nat)

/-- The version a call is about. -/
def TreeOp.version {K V : Type} : TreeOp K V → Nat
  | .insert i _ | .replace i _ | .remove i _ | .popMin i | .popMax i | .copy i
  | .destroy i => i

/-- The nodes, the versions the client holds, and the values it was given. -/
structure ImmutableTrees (V : Type) where
  heap : Heap (ImmutableNode V)
  versions : List Ref
  popped : List V

namespace ImmutableTrees

open TreeM ImmutableNode

variable {K V : Type} (key_compare : K → K → Bool) (key_of_value : V → K)

/-- One version, which is empty. -/
def create [Inhabited V] : Except Fault (ImmutableTrees V) := do
  let (n, heap) ← (incref terminator : TreeM V Ref) initial
  return ⟨heap, [n], []⟩

/-- The height is the bound of the recursion. -/
def fuel (n : Ref) : TreeM V Nat := do
  return (← read n).height + 1

def add (s : ImmutableTrees V) (op : TreeM V Ref) : Except Fault (ImmutableTrees V) := do
  let (n, heap) ← op s.heap
  return { s with heap := heap, versions := s.versions ++ [n] }

def addPopped (s : ImmutableTrees V) (op : TreeM V (V × Ref)) :
    Except Fault (ImmutableTrees V) := do
  let ((value, n), heap) ← op s.heap
  return ⟨heap, s.versions ++ [n], s.popped ++ [value]⟩

def step (s : ImmutableTrees V) : TreeOp K V → Except Fault (ImmutableTrees V)
  | .insert i v => withVersion i fun n => s.add do
      TreeM.insert key_compare key_of_value v (← fuel n) n
  | .replace i v => withVersion i fun n => s.add do
      TreeM.replace key_compare key_of_value v (← fuel n) n
  | .remove i k => withVersion i fun n => s.add do
      TreeM.remove key_compare key_of_value k (← fuel n) n
  | .popMin i => withVersion i fun n => s.addPopped do TreeM.popMin (← fuel n) n
  | .popMax i => withVersion i fun n => s.addPopped do TreeM.popMax (← fuel n) n
  | .copy i => withVersion i fun n => s.add (incref n)
  | .destroy i => withVersion i fun n => do
    let (_, heap) ← TreeM.decref n s.heap
    return { s with heap := heap, versions := s.versions.eraseIdx i }
where
  /-- A client has no other versions to work on. -/
  withVersion (i : Nat) (f : Ref → Except Fault (ImmutableTrees V)) :
      Except Fault (ImmutableTrees V) :=
    match s.versions[i]? with
    | some n => f n
    | none => .ok s

def run [Inhabited V] (ops : List (TreeOp K V)) : Except Fault (ImmutableTrees V) := do
  ops.foldlM (step key_compare key_of_value) (← create)

end ImmutableTrees

end VitalSE
