import TwoLane.HybridProgram
import TwoLane.Optimize.Hybrid

/-! # Overviews

An overview shows what the analysis of a program has found: the ranked blocks, the flow between them, the
dependencies between lines, the lane views, and what hybrid lines depend on. It is a report or a table.
-/

namespace TwoLane.HybridProgram

structure RankedBlock where
  id : Nat
  block : Block

def rankedBlocks (program : HybridProgram) : List RankedBlock :=
  program.ranked.order.map (fun id => ⟨id, program.ranked.graph.block id⟩)

def blockName (program : HybridProgram) (id : Nat) : String :=
  (program.ranked.graph.block id).name

def blockNames (program : HybridProgram) (ids : List Nat) : List String :=
  ids.map program.blockName

def nameAtRank (program : HybridProgram) (rank : Nat) : String :=
  ((program.ranked.order[rank]?).map program.blockName).getD ""

/-- The flow between ranked blocks, by their names. -/
def flowByName (program : HybridProgram) : List (String × String) :=
  program.ranked.flowEdges.map
    (fun edge => (program.nameAtRank edge.1, program.nameAtRank edge.2))

/-- A line and the lines that it depends on, for each name. -/
structure LineDependencies where
  block : String
  line : Nat
  required : Table String (List Nat)

def lineDependencies (program : HybridProgram) : List LineDependencies :=
  program.rankedBlocks.flatMap (fun ranked =>
    ranked.block.lines.filterMap (fun line =>
      let required := ((program.dependencies.node? ranked.id line).map
        (fun node => program.dependencies.dependencies node.number)).getD []
      if required.isEmpty then none else some ⟨ranked.block.name, line, required⟩))

def hybridMaps (program : HybridProgram) : List (Located HybridMap) :=
  HybridMap.located program.lists (program.lists.map HybridMap.ofList)

def blockReport (program : HybridProgram) (ranked : RankedBlock) : Json :=
  .obj [("branches", .strings (program.ranked.graph.branchNames ranked.id)),
    ("dominators", .strings (program.blockNames ranked.block.dominators)),
    ("id", .nat ranked.id), ("lines", .nats ranked.block.lines),
    ("loop_back", .strings (program.blockNames ranked.block.loopBack)),
    ("name", .str ranked.block.name), ("rank", .option .nat ranked.block.rank)]

def dependencyReport (entry : LineDependencies) : Json :=
  .obj [("block", .str entry.block),
    ("dependencies", .obj (entry.required.map (fun e => (e.1, .nats e.2)))),
    ("line", .nat entry.line)]

def hybridReport (located : Located HybridMap) : Json :=
  .obj [("block", .str located.block), ("dependencies", located.content.toJson),
    ("index", .nat located.index)]

/-- The overview as a report. Every object lists its fields in the order of their names. -/
def overview (program : HybridProgram) : Json :=
  Json.sortFields (.obj [
    ("blocks", .list program.blockReport program.rankedBlocks),
    ("data_dependencies", .list dependencyReport program.lineDependencies),
    ("flow_graph", .list (fun edge => .obj [("from", .str edge.1), ("to", .str edge.2)])
      program.flowByName),
    ("hybrid_dependencies", .list hybridReport program.hybridMaps),
    ("lanes", .list LaneView.toJson program.lanes),
    ("start_blocks", .strings (program.blockNames program.ranked.startBlocks))])

end TwoLane.HybridProgram
