import VitalSE.Expr.Constraints

/-!
# The index of the free regions

A treap of the free regions of a mapping: a search tree on the base addresses
and a heap on the sizes, with ties broken by a hash of the address. Nodes are
copied on write, so a tree is a value here.

Addresses and sizes are machine words; what the source computes with them wraps.
-/

namespace VitalSE

namespace Word

/-- The difference of two machine words. -/
def sub (a b : Nat) : Nat := (a + 2 ^ 64 - b) % 2 ^ 64

def add (a b : Nat) : Nat := (a + b) % 2 ^ 64

def roundUpToMultipleOf4096 (x : Nat) : Nat := add (sub x 1 ||| 4095) 1

end Word

/-- A free region: what a node of the treap holds beside its children. -/
structure Region where
  baseAddress : Nat
  size : Nat
deriving DecidableEq

namespace Region

def hash (r : Region) : Nat := r.baseAddress * 0x8080808080808081 % 2 ^ 64

def outranks (r r' : Region) : Bool :=
  r'.size < r.size || (r.size == r'.size && r'.hash < r.hash)

end Region

inductive SizedRegions
  | empty
  | node (lhs : SizedRegions) (region : Region) (rhs : SizedRegions)
deriving DecidableEq

namespace SizedRegions

def count : SizedRegions → Nat
  | .empty => 0
  | .node lhs _ rhs => lhs.count + rhs.count + 1

def isEmpty : SizedRegions → Bool
  | .empty => true
  | .node .. => false

def leaf (region : Region) : SizedRegions := .node .empty region .empty

/-- The treap has a node and it outranks the region. -/
def outranks : SizedRegions → Region → Bool
  | .empty, _ => false
  | .node _ r _, region => r.outranks region

def sameKey : Abort :=
  .assertion "multiple insertions of the same tree-key are not supported"

/-- Put a child that outranks the node in its place. -/
def rotateLhs (lhs : SizedRegions) (n : Region) (rhs : SizedRegions) : SizedRegions :=
  match lhs with
  | .empty => .node .empty n rhs
  | .node ll l lr => if l.outranks n then .node ll l (.node lr n rhs) else .node lhs n rhs

def rotateRhs (lhs : SizedRegions) (n : Region) (rhs : SizedRegions) : SizedRegions :=
  match rhs with
  | .empty => .node lhs n .empty
  | .node rl r rr => if r.outranks n then .node (.node lhs n rl) r rr else .node lhs n rhs

def insertRec (region : Region) : SizedRegions → Except Abort SizedRegions
  | .empty => .error (.assertion "target subtreap must exist")
  | .node lhs n rhs =>
    if n.baseAddress = region.baseAddress then .error sameKey
    else if region.baseAddress < n.baseAddress then do
      if lhs.isEmpty then return rotateLhs (leaf region) n rhs
      else return rotateLhs (← insertRec region lhs) n rhs
    else do
      if rhs.isEmpty then return rotateRhs lhs n (leaf region)
      else return rotateRhs lhs n (← insertRec region rhs)

/-- The loop of `insert`: go down past the nodes that outrank the region. -/
def insertBelow (region : Region) : SizedRegions → Except Abort SizedRegions
  | .empty => .ok (leaf region)
  | .node lhs n rhs =>
    if n.outranks region then
      if n.baseAddress = region.baseAddress then .error sameKey
      else if region.baseAddress < n.baseAddress then do
        return .node (← insertBelow region lhs) n rhs
      else do
        return .node lhs n (← insertBelow region rhs)
    else insertRec region (.node lhs n rhs)

def insert (t : SizedRegions) (region : Region) : Except Abort SizedRegions :=
  if region.size = 0 then
    .error (.assertion "region to be inserted must contain at least one byte")
  else insertBelow region t

/-- The loop of `mergeTreaps`. -/
def mergeLoop : Nat → SizedRegions → SizedRegions → Except Abort SizedRegions
  | 0, _, _ => .error .outOfFuel
  | _ + 1, .empty, rhs => .ok rhs
  | _ + 1, .node ll l lr, .empty => .ok (.node ll l lr)
  | fuel + 1, .node ll l lr, .node rl r rr =>
    if l.baseAddress < r.baseAddress then
      if l.outranks r then do
        return .node ll l (← mergeLoop fuel lr (.node rl r rr))
      else do
        return .node (← mergeLoop fuel (.node ll l lr) rl) r rr
    else .error (.assertion "tree property violated")

def mergeTreaps (lhs rhs : SizedRegions) : Except Abort SizedRegions :=
  mergeLoop (lhs.count + rhs.count + 1) lhs rhs

/-- What hangs in the place of a node that is taken out. -/
def mergeChildren (lhs rhs : SizedRegions) : Except Abort SizedRegions :=
  if lhs.isEmpty && rhs.isEmpty then .ok .empty else mergeTreaps lhs rhs

def getLargestRegion : SizedRegions → Except Abort Region
  | .empty => .error (.assertion
      "querying the largest region only makes sense if the treap is not empty")
  | .node _ r _ => .ok r

/-- Down the left side of the right subtree. -/
def pushDownRightHeap (lhs : SizedRegions) (update : Region) : SizedRegions → SizedRegions
  | .empty => .node lhs update .empty
  | .node rl r rr =>
    if r.outranks update then .node (pushDownRightHeap lhs update rl) r rr
    else .node lhs update (.node rl r rr)

/-- Down the right side of the left subtree. -/
def pushDownLeftHeap (rhs : SizedRegions) (update : Region) : SizedRegions → SizedRegions
  | .empty => .node .empty update rhs
  | .node ll l lr =>
    if l.outranks update then .node ll l (pushDownLeftHeap rhs update lr)
    else .node (.node ll l lr) update rhs

def lhsOutranked : Abort :=
  .assertion ("lhs && (newSize < lhs->getSize() || " ++
    "(newSize == lhs->getSize() && newHash < lhs->hash()))")

def rhsOutranked : Abort :=
  .assertion ("rhs && (newSize < rhs->getSize() || " ++
    "(newSize == rhs->getSize() && newHash < rhs->hash()))")

/-- The loop of `resizeLargestRegion`, entered while both subtrees outrank the
region. -/
def pushDownLoop (update : Region) :
    Nat → SizedRegions → SizedRegions → Except Abort SizedRegions
  | 0, _, _ => .error .outOfFuel
  | fuel + 1, .node ll l lr, .node rl r rr =>
    if !l.outranks update then .error lhsOutranked
    else if !r.outranks update then .error rhsOutranked
    else
      if r.outranks l then
        if rl.outranks update then do
          return .node (← pushDownLoop update fuel (.node ll l lr) rl) r rr
        else return .node (pushDownLeftHeap rl update (.node ll l lr)) r rr
      else if lr.outranks update then do
        return .node ll l (← pushDownLoop update fuel lr (.node rl r rr))
      else return .node ll l (pushDownRightHeap lr update (.node rl r rr))
  | _ + 1, .empty, _ => .error lhsOutranked
  | _ + 1, .node .., .empty => .error rhsOutranked

def resizeLargestRegion (newSize : Nat) : SizedRegions → Except Abort SizedRegions
  | .empty => .error (.assertion
      "updating the largest region only makes sense if the treap is not empty")
  | .node lhs n rhs =>
    let update := { n with size := newSize }
    if !lhs.outranks update then .ok (pushDownRightHeap lhs update rhs)
    else if !rhs.outranks update then .ok (pushDownLeftHeap rhs update lhs)
    else pushDownLoop update (lhs.count + rhs.count + 1) lhs rhs

/-- The search of `mergeAroundAddress`, with the closest regions so far. -/
def findAround (address : Nat) : Option Region → Option Region → SizedRegions →
    Except Abort (Option Region × Option Region)
  | predecessor, successor, .empty => .ok (predecessor, successor)
  | predecessor, successor, .node lhs n rhs =>
    if address < n.baseAddress then
      if successor.all fun s => n.baseAddress < s.baseAddress then
        findAround address predecessor (some n) lhs
      else .error (.assertion
        "(*currentNode)->getBaseAddress() < (*closestSuccessor)->getBaseAddress()")
    else if predecessor.all fun p => p.baseAddress < n.baseAddress then
      findAround address (some n) successor rhs
    else .error (.assertion
      "(*currentNode)->getBaseAddress() > (*closestPredecessor)->getBaseAddress()")

/-- A node below the address on the search path, to the left or to the right. -/
def hasSuccessor (address : Nat) : SizedRegions → Bool
  | .empty => false
  | .node _ n rhs => address < n.baseAddress || hasSuccessor address rhs

def hasPredecessor (address : Nat) : SizedRegions → Bool
  | .empty => false
  | .node lhs n _ => n.baseAddress ≤ address || hasPredecessor address lhs

/-- Along the search path: the closest predecessor gets the new size, and the
closest successor is taken out. -/
def mergeSlots (address newSize : Nat) : SizedRegions → Except Abort SizedRegions
  | .empty => .ok .empty
  | .node lhs n rhs =>
    if address < n.baseAddress then do
      let merged ← mergeSlots address newSize lhs
      if hasSuccessor address lhs then return .node merged n rhs
      else mergeChildren merged rhs
    else do
      let merged ← mergeSlots address newSize rhs
      if hasPredecessor address rhs then return .node lhs n merged
      else return .node lhs { n with size := newSize } merged

def mergeAroundAddress (t : SizedRegions) (address : Nat) : Except Abort SizedRegions := do
  if t.isEmpty then throw (.assertion "An empty treap holds no regions to merge")
  else
    match ← findAround address none none t with
    | (some predecessor, some successor) =>
      let last := Word.add successor.baseAddress successor.size
      mergeSlots address (Word.sub last predecessor.baseAddress) t
    | _ => throw (.assertion "address must be in between two regions")

end SizedRegions

end VitalSE
