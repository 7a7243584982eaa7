import TwoLane.ProgramError
import TwoLane.Block.Dominance
import TwoLane.Block.Reach
import TwoLane.Line.Classification

/-! # Loops, dominators and ranks

Loops come from conditional jumps. The branches of a block that ends in one are cut, and each distinct target is
copied once with everything reachable from it. The copies are starts of further regions, and the cut branches
live on as links to them, so that values still flow around loops. In its region a block is ranked after the blocks
that dominate it.
-/

namespace TwoLane

/-- A block graph whose blocks are ranked, region by region. -/
structure RankedGraph where
  graph : BlockGraph
  /-- The ranked blocks. -/
  order : List Nat
  /-- The first block of each region. -/
  startBlocks : List Nat
  /-- The rank at which each region begins. -/
  boundaries : List Nat
  deriving Inhabited

namespace RankedGraph

def rank? (ranked : RankedGraph) (id : Nat) : Option Nat :=
  (ranked.graph.block id).rank

/-- Whether a region begins at a rank. -/
def isBoundary (ranked : RankedGraph) (rank : Nat) : Bool :=
  ranked.boundaries.contains rank

def flowRanks (ranked : RankedGraph) (id : Nat) : List Nat :=
  (ranked.graph.block id).flow.filterMap ranked.rank?

def flowEdges (ranked : RankedGraph) : List (Nat × Nat) :=
  ranked.order.zipIdx.flatMap
    (fun entry => (ranked.flowRanks entry.1).map (fun target => (entry.2, target)))

/-- The report form of a ranked graph. -/
def toJson (ranked : RankedGraph) : Json :=
  .obj [("cfg", ranked.graph.toJson), ("order", .nats ranked.order),
    ("start_blocks", .nats ranked.startBlocks), ("boundaries", .nats ranked.boundaries)]

end RankedGraph

namespace BlockGraph

/-- Whether a block ends in a jump that a classical value decides. -/
def endsInCondition (lines : Classification) (block : Block) : Bool :=
  block.lastLine?.bind lines.category? == some .classicalControl

def conditionals (graph : BlockGraph) (lines : Classification) : List (Nat × List Nat) :=
  ((List.range graph.size).filter (fun id => endsInCondition lines (graph.block id))).map
    (fun id => (id, graph.branches id))

def withoutConditionals (graph : BlockGraph) (lines : Classification) : BlockGraph :=
  ⟨graph.blocks.map
    (fun block => if endsInCondition lines block then { block with branches := [] } else block)⟩

def copyBlock (graph : BlockGraph) (copyOf : Nat → Nat) (id : Nat) : Block :=
  let block := graph.block id
  ⟨block.name, block.lines, block.branches.map copyOf, [], none, [], block.bindings, some id⟩

/-- Append copies of a block and of everything reachable from it; the copy of the block itself comes first. -/
def copyReachable (graph : BlockGraph) (root : Nat) : BlockGraph :=
  let sources := Reach.depthFirst graph.branches (graph.size + 1) [] root
  let copyOf (id : Nat) : Nat := graph.size + sources.idxOf id
  ⟨graph.blocks ++ sources.map (graph.copyBlock copyOf)⟩

/-- Append copies for several blocks; answers where the copy of each one is. -/
def copyAll (graph : BlockGraph) : List Nat → BlockGraph × List (Nat × Nat)
  | [] => (graph, [])
  | root :: rest =>
      let further := copyAll (graph.copyReachable root) rest
      (further.1, (root, graph.size) :: further.2)

/-- Lead the cut branches of each block, and of each copy of it, to the copies of their targets. -/
def linkLoops (graph : BlockGraph) (cut : List (Nat × List Nat)) (copies : List (Nat × Nat)) :
    BlockGraph :=
  ⟨graph.blocks.zipIdx.map (fun entry =>
    match cut.lookup (entry.1.copiedFrom.getD entry.2) with
    | some targets => { entry.1 with loopBack := targets.filterMap (fun t => copies.lookup t) }
    | none => entry.1)⟩

/-- Break all loops that a condition closes; answers the starts of the regions as well. -/
def breakLoops (graph : BlockGraph) (lines : Classification) : BlockGraph × List Nat :=
  let cut := graph.conditionals lines
  let targets := Reach.fresh (cut.flatMap Prod.snd) []
  let copied := (graph.withoutConditionals lines).copyAll targets
  (copied.1.linkLoops cut copied.2, start :: copied.2.map Prod.snd)

/-- The blocks of the region that starts at a block, nearest ones first. -/
def region (graph : BlockGraph) (root : Nat) : List Nat :=
  Reach.fromRoot graph.branches graph.size root

/-- Note the dominators of the blocks of a region. -/
def setDominators (graph : BlockGraph) (root : Nat) (members : List Nat) : BlockGraph :=
  let known := graph.dominance root members
  members.foldl
    (fun acc id => acc.modify id (fun block => { block with dominators := known.of id }))
    graph

def setRanks (graph : BlockGraph) (order : List Nat) : BlockGraph :=
  order.zipIdx.foldl
    (fun acc entry => acc.modify entry.1 (fun block => { block with rank := some entry.2 }))
    graph

/-- Rank the blocks of a queue. A block whose dominators are all ranked is ranked next, another one waits again behind
    the others. The attempt ends when every block of the queue has had to wait and the first one has to once more. -/
def rankQueue (graph : BlockGraph) : Nat → (stalled : Nat) → (ranked queue : List Nat) →
    Except ProgramError (List Nat)
  | _, _, ranked, [] => .ok ranked
  | 0, _, _, queue => .error (.rankingStalled queue.length)
  | bound + 1, stalled, ranked, id :: rest =>
      if (graph.block id).dominators.all (fun d => ranked.contains d) then
        rankQueue graph bound 0 (ranked ++ [id]) rest
      else
        let queue := rest ++ [id]
        if stalled + 1 > queue.length then .error (.rankingStalled queue.length)
        else rankQueue graph bound (stalled + 1) ranked queue

/-- More steps than a queue takes: before each block that is ranked, every other one waits at most once. -/
def queueBound (queue : List Nat) : Nat :=
  queue.length * (queue.length + 2)

/-- Rank the regions one after the other; answers the order and the ranks at which regions begin. -/
def rankRegions (graph : BlockGraph) : (ranked roots : List Nat) →
    Except ProgramError (List Nat × List Nat)
  | ranked, [] => .ok (ranked, [])
  | ranked, root :: rest => do
      let members := graph.region root
      let extended ← graph.rankQueue (queueBound members) 0 ranked members
      let further ← rankRegions graph extended rest
      .ok (further.1, ranked.length :: further.2)

def rank (graph : BlockGraph) (lines : Classification) : Except ProgramError RankedGraph := do
  let (broken, starts) := graph.breakLoops lines
  let dominated := starts.foldl (fun acc root => acc.setDominators root (acc.region root)) broken
  let (order, boundaries) ← dominated.rankRegions [] starts
  .ok ⟨dominated.setRanks order, order, starts, boundaries⟩

end BlockGraph

end TwoLane
