import Mathlib.Algebra.Order.Field.Rat
import Mathlib.Data.Finset.Insert

/-!
# The records of unsafe operations

Which memory operations are unsafe is read from a file of records before the run.
The searcher scores a branch by the unsafe operations in its blocks, and the
executor rewards a simulation for those that it has executed. Both keep what they
have found out: `globalUnsafeBlockMap` the count of a block, and
`globalUnsafeInstructionSet` the instructions that are unsafe.

The blocks of a branch are those from where the state stands to the nearest
post-dominator of both states.
-/

namespace VitalSE.Mcts

/-- The instructions of which there are records. -/
inductive MemoryOperation
  | store
  | load
  | getElementPtr
  | cast

def MemoryOperation.label : MemoryOperation → String
  | store => "STORE-"
  | load => "LOAD-"
  | getElementPtr => "GETE-"
  | cast => "CAST-"

structure Instruction where
  operation : Option MemoryOperation
  function : String
  /-- Line and column, where there is a debug location. -/
  location : Option (Nat × Nat)

def Instruction.record (ii : Instruction) : Option String :=
  match ii.operation, ii.location with
  | some op, some (line, col) =>
    some (op.label ++ ii.function ++ "_nesCheck" ++ "-" ++ toString line ++ "-" ++
      toString col)
  | _, _ => none

/-- The module, whose instructions and blocks are told apart by their addresses,
and the records. -/
structure Records (I B : Type) where
  instruction : I → Instruction
  block : B → List I
  globalRecordingSet : List String

namespace Records

variable {I B : Type} [DecidableEq I] [DecidableEq B] (rs : Records I B)

def isRecorded (ii : I) : Bool :=
  (rs.instruction ii).record.any (· ∈ rs.globalRecordingSet)

/-! ## Rewards -/

/-- One round of the loop over the records of a simulation, with the count and
`globalUnsafeInstructionSet`. -/
def countUnsafe (count : Nat × List I) (ii : I) : Nat × List I :=
  if ii ∈ count.2 then (count.1 + 1, count.2)
  else if rs.isRecorded ii then (count.1 + 1, ii :: count.2)
  else count

def getSimulationReward (current_records : List I) (errorCount : Nat)
    (unsafeSet : List I) : ℚ × List I :=
  let (unsafeCount, unsafeSet) := current_records.foldl rs.countUnsafe (0, unsafeSet)
  ((unsafeCount + errorCount : Nat), unsafeSet)

/-! ## Scores -/

/-- The recorded operations of a block. -/
def blockCount (bb : B) : Nat := (rs.block bb).countP rs.isRecorded

/-- The loop over the blocks of a branch, with `globalUnsafeBlockMap`. A block that
is found in the map ends it. -/
def countBranch : List B → Nat → List (B × Nat) → Nat × List (B × Nat)
  | [], count, blockMap => (count, blockMap)
  | bb :: rest, count, blockMap =>
    match blockMap.lookup bb with
    | some n => (count + n, blockMap)
    | none => countBranch rest (count + rs.blockCount bb)
        ((bb, rs.blockCount bb) :: blockMap)

def getExpansionScore (left right : List B) (blockMap : List (B × Nat)) :
    (ℚ × ℚ) × List (B × Nat) :=
  let (count_left, blockMap) := rs.countBranch left 0 blockMap
  let (count_right, blockMap) := rs.countBranch right 0 blockMap
  ((1 / 2 * count_left, 1 / 2 * count_right), blockMap)

end Records

/-! ## The blocks of a branch -/

/-- What `getBranchBlocks` keeps for a side. -/
structure BranchSide (B : Type) where
  stack : List B
  br : List B
  set : Finset B

section

variable {B : Type} [DecidableEq B] (succ : B → List B) (nearest_bb_post : B)

/-- The loop over the successors of a block. -/
def BranchSide.addSuccessors : List B → BranchSide B → BranchSide B
  | [], side => side
  | bb :: rest, side =>
    if bb = nearest_bb_post then { side with stack := side.stack.tail }
    else
      let side := { side with
        br := if bb ∈ side.br then side.br else side.br ++ [bb]
        stack := bb :: side.stack }
      if bb ∈ side.set then { side with set := ∅ }
      else addSuccessors rest { side with set := insert bb side.set }

/-- The loop over the stack, which is left early when the set is empty. -/
def BranchSide.blocks : Nat → BranchSide B → Option (List B)
  | 0, _ => none
  | fuel + 1, side =>
    match side.stack with
    | [] => some side.br
    | tbb :: stack =>
      if tbb = nearest_bb_post then some []
      else
        let side := addSuccessors nearest_bb_post (succ tbb) { side with stack }
        if side.set = ∅ then some side.br else blocks fuel side

/-- The case that the two blocks have a nearest common post-dominator. -/
def getBranchBlocks (fuel : Nat) (left_pc_bb right_pc_bb : B) :
    Option (List B × List B) := do
  let if_then_br ← BranchSide.blocks succ nearest_bb_post fuel ⟨[left_pc_bb], [left_pc_bb], ∅⟩
  let if_else_br ←
    BranchSide.blocks succ nearest_bb_post fuel ⟨[right_pc_bb], [right_pc_bb], ∅⟩
  return (if_then_br, if_else_br)

end

end VitalSE.Mcts
