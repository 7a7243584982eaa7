import TwoLane.HybridProgram.Overview
import TwoLane.Text.Quoted

/-! # Overview tables

The table form of an overview, line by line. Sections are separated by an empty line and start with an arrow.
Lists of names quote them.
-/

namespace TwoLane

def Text.nameList (names : List String) : String :=
  listed (names.map quoted)

def Text.numberList (numbers : List Nat) : String :=
  listed (numbers.map toString)

def Text.numberSet (numbers : List Nat) : String :=
  grouped (numbers.map toString)

def Lane.word : Lane → String
  | .quantum => "quantum"
  | .classical => "classical"
  | .control => "control"

namespace HybridProgram

def orNone (rows : List String) : List String :=
  if rows.isEmpty then ["  (none)"] else rows

/-- The heading of a section, behind an empty line. -/
def titled (title : String) (rows : List String) : List String :=
  "" :: ("→ " ++ title) :: rows

def blockRows (program : HybridProgram) (ranked : RankedBlock) : List String :=
  let block := ranked.block
  let rank := (block.rank.map toString).getD "-"
  let heading := "  [" ++ rank ++ "] " ++ block.name ++ " lines " ++ Text.numberList block.lines
  let branches :=
    "      branches:   " ++ Text.nameList (program.ranked.graph.branchNames ranked.id)
  let loopBack :=
    if block.loopBack.isEmpty then []
    else ["      loop back:  " ++ Text.nameList (program.blockNames block.loopBack)]
  let dominators :=
    "      dominators: " ++ Text.nameList (program.blockNames block.dominators)
  heading :: branches :: loopBack ++ [dominators]

def dependencyRow (entry : LineDependencies) : String :=
  let required :=
    entry.required.map (fun e => Text.quoted e.1 ++ ": " ++ Text.numberSet e.2)
  "  " ++ entry.block ++ " line " ++ toString entry.line ++ ": " ++ Text.grouped required

def laneRow (program : HybridProgram) (index : Nat) (view : LaneView) : String :=
  "  " ++ Text.padLeft 3 (toString index) ++ " " ++ program.blockName view.parent ++ " " ++
    Text.padRight 9 view.lane.word ++ " lines " ++ Text.numberList view.lines ++ " -> " ++
    Text.numberList view.branches

def hybridRows (located : Located HybridMap) : List String :=
  located.content.map (fun entry =>
    "  " ++ located.block ++ " line " ++ toString entry.1 ++ ": " ++ Text.numberSet entry.2)

def table (program : HybridProgram) : List String :=
  let ranked := program.ranked
  let heading := "→ " ++ toString ranked.order.length ++ " ranked blocks, " ++
    toString ranked.startBlocks.length ++ " start blocks"
  heading :: program.rankedBlocks.flatMap program.blockRows ++
    titled "Flow graph"
      (program.flowByName.map (fun edge => "  " ++ edge.1 ++ " -> " ++ edge.2)) ++
    titled "Data dependencies" (orNone (program.lineDependencies.map dependencyRow)) ++
    titled "Lanes" (program.lanes.zipIdx.map (fun entry => program.laneRow entry.2 entry.1)) ++
    titled "Hybrid dependencies" (orNone (program.hybridMaps.flatMap hybridRows))

end HybridProgram

end TwoLane
