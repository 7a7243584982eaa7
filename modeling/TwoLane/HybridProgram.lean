import TwoLane.Block.Dependency
import TwoLane.Block.Inlining
import TwoLane.Block.LaneView
import TwoLane.InstructionList.Basic

/-! # Hybrid programs

A hybrid program is analysed from its tree and source text: lines are classified, levels become blocks, blocks
are ranked, and every ranked block gives one instruction list. The list of a block may be followed by those of
the blocks to which control flows.
-/

namespace TwoLane

/-- An analysed program. -/
structure HybridProgram where
  source : List String
  lines : Classification
  ranked : RankedGraph
  dependencies : DependencyGraph
  /-- The instruction lists of the ranked blocks, in rank order. -/
  lists : List InstructionList
  /-- The memory references whose final values are observed, in increasing order. -/
  readout : List String
  deriving Inhabited

namespace HybridProgram

/-- The source text of a line without blanks around it, unless it is empty. -/
def sourceText? (source : List String) (line : Nat) : Option String :=
  match source[line]? with
  | none => none
  | some content =>
      let text := Text.trim content.toList
      if text.isEmpty then none else some (String.ofList text)

/-- The instruction of a line in a block. Where qubits are renamed the source text does not apply. -/
def instruction? (lines : Classification) (source : List String) (bindings : Bindings)
    (line : Nat) : Option Instruction :=
  (Table.get? line lines).map (fun classified =>
    let node :=
      Instruction.ofOperation line classified.category (Operation.ofTree classified.node bindings)
    match bindings, sourceText? source line with
    | [], some text => { node with text := text }
    | _, _ => node)

def listOf (ranked : RankedGraph) (lines : Classification) (source : List String) (id : Nat) :
    InstructionList :=
  let block := ranked.graph.block id
  let nodes := block.lines.filterMap (instruction? lines source block.bindings)
  { InstructionList.ofNodes id block.name nodes with successors := ranked.flowRanks id }

def ofTree (root : Tree) (source : String) (readout : List String) :
    Except ProgramError HybridProgram := do
  let source := Text.lines source
  let lines := Classification.ofTree root
  let graph ← BlockGraph.ofLevel (Level.ofTree root)
  let ranked ← graph.rank lines
  .ok {
    source := source
    lines := lines
    ranked := ranked
    dependencies := .ofRanked ranked lines
    lists := ranked.order.map (listOf ranked lines source)
    readout := Sorted.ofList readout }

def lanes (program : HybridProgram) : List LaneView :=
  LaneView.split program.ranked program.lines

end HybridProgram

end TwoLane
