import TwoLane.Block.Ranking
import TwoLane.Line.Touch
import TwoLane.Resource

/-! # Dependencies between lines

Every classified line of every ranked block is a node. For each name that a line touches there is an edge
from the last line before it that touches the same name: first in the block itself, then in its
dominators from the nearest one outwards. The search stays in the region, so loop copies do not depend on
each other.
-/

namespace TwoLane

def TouchedLine.resources (line : TouchedLine) : List Resource :=
  line.classical.map .memory ++ line.quantum.map .qubit

def TouchedLine.touches (line : TouchedLine) : Resource → Bool
  | .memory name => line.touchesMemory name
  | .qubit name => line.touchesQubit name

/-- A classified line of a block. -/
structure DependencyNode where
  number : Nat
  block : Nat
  line : TouchedLine
  deriving Repr, DecidableEq, Inhabited

/-- Which node has to run before which, and because of which name. -/
structure DependencyEdge where
  source : Nat
  target : Nat
  name : String
  deriving Repr, DecidableEq, Inhabited

/-- The classified lines of a ranked program and the order they impose on each other. -/
structure DependencyGraph where
  nodes : List DependencyNode
  edges : List DependencyEdge
  deriving Inhabited

namespace DependencyGraph

def nodesOf (ranked : RankedGraph) (lines : Classification) : List DependencyNode :=
  let touched := ranked.order.flatMap (fun id =>
    let block := ranked.graph.block id
    (block.lines.filterMap (TouchedLine.ofLine? lines block.bindings)).map (fun t => (id, t)))
  touched.zipIdx.map (fun entry => ⟨entry.2, entry.1.1, entry.1.2⟩)

/-- Insert a block before the first one of lower rank. -/
def insertByRank (ranked : RankedGraph) (id : Nat) : List Nat → List Nat
  | [] => [id]
  | other :: rest =>
      if (ranked.rank? other).getD 0 < (ranked.rank? id).getD 0 then id :: other :: rest
      else other :: insertByRank ranked id rest

def regionStart (ranked : RankedGraph) (rank : Nat) : Nat :=
  ((ranked.boundaries.filter (fun boundary => boundary ≤ rank)).getLast?).getD 0

/-- The dominators of a block in its region, nearest ones first. -/
def dominatorsOutwards (ranked : RankedGraph) (id : Nat) : List Nat :=
  let start := regionStart ranked ((ranked.rank? id).getD 0)
  let inRegion := (ranked.graph.block id).dominators.filter
    (fun d => match ranked.rank? d with
      | some rank => start ≤ rank
      | none => false)
  inRegion.foldl (fun acc d => insertByRank ranked d acc) []

/-- The nodes before a node on the way from the start of its region, the last one first. -/
def before (ranked : RankedGraph) (nodes : List DependencyNode) (node : DependencyNode) :
    List DependencyNode :=
  let own := nodes.filter (fun other => other.block == node.block && other.number < node.number)
  let dominating := (dominatorsOutwards ranked node.block).flatMap
    (fun d => (nodes.filter (fun other => other.block == d)).reverse)
  own.reverse ++ dominating

def edgesInto (ranked : RankedGraph) (nodes : List DependencyNode) (node : DependencyNode) :
    List DependencyEdge :=
  let earlier := before ranked nodes node
  node.line.resources.filterMap (fun resource =>
    (earlier.find? (fun other => other.line.touches resource)).map
      (fun source => ⟨source.number, node.number, resource.name⟩))

def ofRanked (ranked : RankedGraph) (lines : Classification) : DependencyGraph :=
  let nodes := nodesOf ranked lines
  ⟨nodes, nodes.flatMap (edgesInto ranked nodes)⟩

def node? (graph : DependencyGraph) (block line : Nat) : Option DependencyNode :=
  graph.nodes.find? (fun node => node.block == block && node.line.line == line)

def lineOf? (graph : DependencyGraph) (number : Nat) : Option Nat :=
  (graph.nodes[number]?).map (fun node => node.line.line)

/-- The lines that have to run before a node, for each name. -/
def dependencies (graph : DependencyGraph) (number : Nat) : Table String (List Nat) :=
  (graph.edges.filter (fun edge => edge.target == number)).foldl
    (fun acc edge =>
      match graph.lineOf? edge.source with
      | some line => Table.modify edge.name [] (fun lines => Sorted.insert line lines) acc
      | none => acc)
    []

end DependencyGraph

end TwoLane
