import TwoLane.InstructionList.Change
import TwoLane.Optimize.Liveness
import TwoLane.Optimize.Error

/-! # Removal

Dead instructions go, and so does everything in lists that control cannot reach. For the cost of a program
labels, jumps, halts and headers do not count: they are removed once the blocks are fixed, except that a list of
nothing else keeps its last one, so that only a path that stops is ever left empty.
-/

namespace TwoLane

/-- What can be removed without changing observed results. -/
structure DeadCode where
  /-- The dead instructions of each list. -/
  instructions : List (List Nat)
  /-- The lists that cannot be reached from the first one. -/
  blocks : List Nat
  deriving Repr, DecidableEq, Inhabited

namespace DeadCode

def successors (lists : List InstructionList) (index : Nat) : List Nat :=
  match lists[index]? with
  | some list => list.successors.filter (fun s => s < lists.length)
  | none => []

/-- The lists that cannot be reached from the first one. -/
def unreachable (lists : List InstructionList) : List Nat :=
  let reached := Reach.fromRoot (successors lists) lists.length 0
  (List.range lists.length).filter (fun i => !reached.contains i)

def find (lists : List InstructionList) (readout : List String) : DeadCode :=
  ⟨(Liveness.analyse lists readout).map Liveness.deadIds, unreachable lists⟩

/-- The number of dead instructions in lists that can be reached. -/
def count (dead : DeadCode) : Nat :=
  ((dead.instructions.zipIdx.filter (fun entry => !dead.blocks.contains entry.2)).flatMap Prod.fst).length

def toRemove (dead : DeadCode) (index : Nat) (list : InstructionList) : List Nat :=
  if dead.blocks.contains index then list.order else (dead.instructions[index]?).getD []

end DeadCode

namespace InstructionList

def removeAll (list : InstructionList) (ids : List Nat) : Except ProgramError InstructionList :=
  ids.foldlM (fun acc id => acc.remove id) list

/-- The instructions that only mark or steer the flow of control, without the last one if there are no
    others. -/
def controlIds (list : InstructionList) : List Nat :=
  let ids := (list.running.filter (fun node => node.category == .control)).map Instruction.id
  if ids.length = list.size then ids.dropLast else ids

/-- Remove the instructions that only mark or steer the flow of control; answers how many there were. -/
def removeControl (list : InstructionList) : Except ProgramError (InstructionList × Nat) := do
  let removed ← list.removeAll list.controlIds
  .ok (removed, list.controlIds.length)

end InstructionList

/-- Remove control instructions from all lists; answers how many there were. -/
def removeControl (lists : List InstructionList) :
    Except ProgramError (List InstructionList × Nat) := do
  let results ← lists.mapM InstructionList.removeControl
  .ok (results.map Prod.fst, results.foldl (fun removed result => removed + result.2) 0)

end TwoLane
