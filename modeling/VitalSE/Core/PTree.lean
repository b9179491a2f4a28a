import Mathlib.Algebra.Order.Ring.Unbundled.Rat
import VitalSE.Expr.Constraints

/-!
# The process tree

Every fork of a state adds two leaves below the node of the state, and the node
keeps the statistics of the tree search. Nodes are held by reference number; a
number is never used again after its node is deleted, so that an access through
a dangling pointer shows up as one.
-/

namespace VitalSE

abbrev StateRef := Nat

abbrev NodeRef := Nat

/-- A pointer to a child. The integer has one bit for each random-path searcher,
set if the searcher has a state below. -/
structure PTreeNodePtr where
  pointer : Option NodeRef
  int : BitVec 3
deriving DecidableEq

structure PTreeNode where
  parent : Option NodeRef
  left : PTreeNodePtr
  right : PTreeNodePtr
  state : Option StateRef
  isTerminal : Bool
  visit : Nat
  reward : ℚ
  isInMCTSTree : Bool
  isForked : Bool
  isSimulated : Bool

structure PTree where
  nodes : NodeRef → Option PTreeNode
  nextNode : NodeRef
  root : PTreeNodePtr

namespace PTreeNodePtr

def null : PTreeNodePtr := ⟨none, 0⟩

end PTreeNodePtr

namespace PTreeNode

def create (parent : Option NodeRef) (state : StateRef) : PTreeNode where
  parent := parent
  left := .null
  right := .null
  state := some state
  isTerminal := false
  visit := 0
  reward := 0
  isInMCTSTree := false
  isForked := false
  isSimulated := false

def hasChild (n : PTreeNode) : Bool :=
  n.left.pointer.isSome || n.right.pointer.isSome

end PTreeNode

namespace PTree

def create (initialState : StateRef) : PTree where
  nodes := Function.update (fun _ => none) 0 (some (.create none initialState))
  nextNode := 1
  root := ⟨some 0, 0⟩

/-- The bit of the next random-path searcher, and the number of bits given out. -/
def getNextId (registeredIds : Nat) : Except Abort (BitVec 3 × Nat) :=
  if 3 < registeredIds + 1 then
    .error (.fatal "PTree cannot support more than 3 RandomPathSearchers")
  else .ok (1#3 <<< registeredIds, registeredIds + 1)

def node (t : PTree) (n : NodeRef) : Except Abort PTreeNode :=
  match t.nodes n with
  | some node => .ok node
  | none => .error (.undefined "access to a deleted process tree node")

def setNode (t : PTree) (n : NodeRef) (node : PTreeNode) : PTree :=
  { t with nodes := Function.update t.nodes n (some node) }

def delete (t : PTree) (n : NodeRef) : PTree :=
  { t with nodes := Function.update t.nodes n none }

def modifyNode (t : PTree) (n : NodeRef) (f : PTreeNode → PTreeNode) :
    Except Abort PTree := do
  return t.setNode n (f (← t.node n))

/-- The pointer to a node, which its parent or the tree has. -/
def childPtr (t : PTree) (n : NodeRef) : Except Abort PTreeNodePtr := do
  match (← t.node n).parent with
  | none => return t.root
  | some p =>
    let parent ← t.node p
    return if parent.left.pointer = some n then parent.left else parent.right

def setChildInt (t : PTree) (n : NodeRef) (int : BitVec 3) : Except Abort PTree := do
  match (← t.node n).parent with
  | none => return { t with root := { t.root with int := int } }
  | some p =>
    t.modifyNode p fun parent =>
      if parent.left.pointer = some n then
        { parent with left := { parent.left with int := int } }
      else { parent with right := { parent.right with int := int } }

/-- The tree with two leaves below a node, and the leaves of the left and of the
right state. The right state is the one that had the node, and its leaf
inherits the tag. -/
def attach (t : PTree) (n : NodeRef) (leftState rightState : StateRef) :
    Except Abort (PTree × NodeRef × NodeRef) := do
  let node ← t.node n
  let currentNodeTag := (← t.childPtr n).int
  let left := t.nextNode
  let right := t.nextNode + 1
  let t := t.setNode n { node with
    state := none
    left := ⟨some left, 0⟩
    right := ⟨some right, currentNodeTag⟩ }
  let t := t.setNode left (.create (some n) leftState)
  let t := t.setNode right (.create (some n) rightState)
  return ({ t with nextNode := t.nextNode + 2 }, left, right)

/-- The loop of `remove`: delete the node and its ancestors up to the first one
that has another child, which is returned. -/
def removeUp : Nat → PTree → NodeRef → Except Abort (PTree × Option NodeRef)
  | 0, _, _ => .error .outOfFuel
  | fuel + 1, t, n => do
    match (← t.node n).parent with
    | none => return (t.delete n, none)
    | some p =>
      let parent ← t.node p
      let t ← (if parent.left.pointer = some n then
          pure (t.setNode p { parent with left := .null })
        else if parent.right.pointer = some n then
          pure (t.setNode p { parent with right := .null })
        else throw (.assertion "n == p->right.getPointer()"))
      let t := t.delete n
      if (← t.node p).hasChild then return (t, some p) else removeUp fuel t p

/-- Take out a node that has one child and hang the child up in its place. -/
def compress (t : PTree) (n : NodeRef) : Except Abort PTree := do
  let node ← t.node n
  let child := if node.left.pointer.isSome then node.left else node.right
  match child.pointer with
  | none => throw (.undefined "access through a null pointer")
  | some c =>
    let t ← t.modifyNode c fun child => { child with parent := node.parent }
    match node.parent with
    | none => return { t with root := child }.delete n
    | some p =>
      let parent ← t.node p
      if parent.left.pointer = some n then
        return (t.setNode p { parent with left := child }).delete n
      else if parent.right.pointer = some n then
        return (t.setNode p { parent with right := child }).delete n
      else throw (.assertion "n == parent->right.getPointer()")

def remove (compressProcessTree : Bool) (t : PTree) (n : NodeRef) :
    Except Abort PTree := do
  if (← t.node n).hasChild then
    throw (.assertion "!n->left.getPointer() && !n->right.getPointer()")
  else
    match ← removeUp (t.nextNode + 1) t n with
    | (t, some n) => if compressProcessTree then t.compress n else return t
    | (t, none) => return t

/-- The loop of `doBackpropagation`. -/
def propagateUp (reward : ℚ) : Nat → PTree → NodeRef → Except Abort PTree
  | 0, _, _ => .error .outOfFuel
  | fuel + 1, t, n => do
    let node ← t.node n
    let t := t.setNode n { node with
      visit := node.visit + 1
      reward := node.reward + reward }
    match node.parent with
    | none => return t
    | some p => propagateUp reward fuel t p

def doBackpropagation (t : PTree) (reward : ℚ) (n : NodeRef) : Except Abort PTree :=
  propagateUp reward (t.nextNode + 1) t n

end PTree

end VitalSE
