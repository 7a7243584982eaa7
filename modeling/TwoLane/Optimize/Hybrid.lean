import TwoLane.InstructionList.Basic
import TwoLane.Optimize.Report

/-! # Hybrid maps

A hybrid map says, for each hybrid line of a list, which other lines have to run before it. Of several hybrid
instructions on one line the last one counts.
-/

namespace TwoLane.HybridMap

def requiredLines (list : InstructionList) (node : Instruction) : List Nat :=
  let required := ((list.dependencies node.id).filterMap list.get?).filter
    (fun dependency => !dependency.category.isHybrid)
  Sorted.ofList (required.map Instruction.line)

def ofList (list : InstructionList) : HybridMap :=
  Table.ofList ((list.running.filter (fun node => node.category.isHybrid)).map
    (fun node => (node.line, requiredLines list node)))

def located (lists : List InstructionList) (maps : List HybridMap) : List (Located HybridMap) :=
  ((lists.zip maps).zipIdx.filter (fun entry => !entry.1.2.isEmpty)).map
    (fun entry => ⟨entry.2, entry.1.1.name, entry.1.2⟩)

end TwoLane.HybridMap
