import TwoLane.Proofs.Block.SimplePaths
import TwoLane.Proofs.Program.Conflicts

/-! # Dependencies come from last touches

In a ranked graph that keeps one branch of each block, the lines before a line are those on the one simple path to
its block. The search for a dependency goes through the block and its dominators backwards, which is this path
from its end on, so what it finds is the last line before that touches the name.
-/

namespace TwoLane

namespace DependencyGraph

variable {ranked : RankedGraph} {lines : Classification} {graph : DependencyGraph} {k l : DependencyNode} {id : Nat}
  {path front : List Nat}

/-! ## Lines on a path -/

def nodesIn (graph : DependencyGraph) (id : Nat) : List DependencyNode :=
  graph.nodes.filter (fun node => node.block == id)

def onPathBefore (graph : DependencyGraph) (path : List Nat) (node : DependencyNode) : List DependencyNode :=
  (path.flatMap graph.nodesIn).takeWhile (fun other => other != node)

def lastTouch? (graph : DependencyGraph) (path : List Nat) (node : DependencyNode) (resource : Resource) :
    Option DependencyNode :=
  ((graph.onPathBefore path node).filter (fun other => other.line.touches resource)).getLast?

theorem filter_number_lt {nodes : List DependencyNode} (increasing : nodes.Pairwise (fun a b => a.number < b.number))
    (member : l ∈ nodes) :
    nodes.filter (fun other => other.number < l.number) = nodes.takeWhile (fun other => other != l) := by
  obtain ⟨before, behind, rfl⟩ := List.append_of_mem member
  obtain ⟨_, further, across⟩ := List.pairwise_append.mp increasing
  obtain ⟨later, _⟩ := List.pairwise_cons.mp further
  have less : ∀ other ∈ before, other.number < l.number := fun other there => across other there l List.mem_cons_self
  have lower : before.filter (fun other => decide (other.number < l.number)) = before :=
    List.filter_eq_self.mpr (fun other there => decide_eq_true (less other there))
  have higher : (l :: behind).filter (fun other => decide (other.number < l.number)) = [] := by
    refine List.filter_eq_nil_iff.mpr (fun other there => ?_)
    rcases List.mem_cons.mp there with rfl | there
    · simp
    · simpa using (later other there).le
  rw [List.filter_append, lower, higher, List.append_nil, List.takeWhile_append_of_pos]
  · simp
  · intro other there
    rw [bne_iff_ne]
    rintro rfl
    exact absurd (less other there) (Nat.lt_irrefl _)

section Ranked

variable (numbered : ranked.Numbered) (chained : ranked.Chained) (straight : ranked.Straight)
include numbered chained straight

theorem dominatorsOutwards_eq (simple : ranked.SimplePath (front ++ [id]) id) :
    dominatorsOutwards ranked id = front.reverse := by
  have member : id ∈ ranked.order := by
    obtain ⟨root, there, way⟩ := simple
    exact straight.reachable.mpr ⟨root, there, _, way.leads⟩
  obtain ⟨perm, outwards⟩ := dominatorsOutwards_spec numbered chained member
  have same : (dominatorsOutwards ranked id).Perm front.reverse := by
    refine perm.trans (.trans ?_ front.reverse_perm.symm)
    refine (List.perm_ext_iff_of_nodup (chained.distinct id member) (simple.nodup.sublist (by simp))).mpr (fun d => ?_)
    exact straight.mem_dominators simple
  have backwards := (List.pairwise_append.mp (straight.pairwise_dominators simple)).1
  refine same.eq_of_pairwise ?_ outwards (List.pairwise_reverse.mpr backwards)
  -- of two blocks that dominate each other each one would be ranked first
  intro a b aMember bMember dominates dominates'
  obtain ⟨ranks, _⟩ := chained.earlier id member a (perm.mem_iff.mp aMember)
  obtain ⟨ranks', less⟩ := chained.earlier a ranks b dominates
  obtain ⟨_, less'⟩ := chained.earlier b ranks' a dominates'
  omega

/-- A search for a dependency goes back on the path to a node. -/
theorem before_eq (lNode : l ∈ nodesOf ranked lines) (simple : ranked.SimplePath path l.block) :
    before ranked (nodesOf ranked lines) l = ((ofRanked ranked lines).onPathBefore path l).reverse := by
  obtain ⟨front, rfl⟩ := simple.exists_front
  have inBlock : l ∈ (ofRanked ranked lines).nodesIn l.block := List.mem_filter.mpr ⟨lNode, beq_self_eq_true _⟩
  have increasing : ((ofRanked ranked lines).nodesIn l.block).Pairwise (fun a b => a.number < b.number) :=
    ((nodes_pairwise numbered.distinct lines).imp And.left).filter _
  have own : (nodesOf ranked lines).filter (fun other => other.block == l.block && other.number < l.number) =
      ((ofRanked ranked lines).nodesIn l.block).takeWhile (fun other => other != l) := by
    rw [← filter_number_lt increasing inBlock, nodesIn, List.filter_filter]
    exact List.filter_congr (fun other _ => Bool.and_comm _ _)
  have elsewhere : ∀ other ∈ front.flatMap (ofRanked ranked lines).nodesIn, (other != l) = true := by
    intro other member
    obtain ⟨d, early, there⟩ := List.mem_flatMap.mp member
    rw [bne_iff_ne]
    rintro rfl
    cases beq_iff_eq.mp (List.mem_filter.mp there).2
    exact List.disjoint_of_nodup_append simple.nodup early List.mem_cons_self
  rw [before, dominatorsOutwards_eq numbered chained straight simple, own, onPathBefore, List.flatMap_append,
    List.takeWhile_append_of_pos elsewhere, List.flatMap_singleton, List.reverse_append, List.reverse_flatMap]
  rfl

theorem edgesInto_eq (lNode : l ∈ nodesOf ranked lines) (simple : ranked.SimplePath path l.block) :
    edgesInto ranked (nodesOf ranked lines) l = l.line.resources.filterMap (fun resource =>
      ((ofRanked ranked lines).lastTouch? path l resource).map
        (fun source => ⟨source.number, l.number, resource.name⟩)) := by
  rw [edgesInto, before_eq numbered chained straight lNode simple]
  refine List.filterMap_congr (fun resource _ => ?_)
  rw [lastTouch?, ← List.head?_filter, List.filter_reverse, List.head?_reverse]

end Ranked

/-! ## Nodes of blocks and edges into nodes -/

theorem filter_flatMap_of_mem {α β : Type} {sources : List α} {a : α} {collect : α → List β} {source : β → Nat}
    (number : α → Nat) (knows : ∀ a ∈ sources, ∀ b ∈ collect a, source b = number a)
    (distinct : (sources.map number).Nodup) (member : a ∈ sources) :
    (sources.flatMap collect).filter (fun b => source b == number a) = collect a := by
  induction sources with
  | nil => cases member
  | cons first rest ih =>
      obtain ⟨here, later⟩ := List.forall_mem_cons.mp knows
      obtain ⟨apart, distinct⟩ := List.nodup_cons.mp distinct
      rw [List.flatMap_cons, List.filter_append]
      rcases List.mem_cons.mp member with rfl | behind
      · have own : (collect a).filter (fun b => source b == number a) = collect a :=
          List.filter_eq_self.mpr (fun b there => beq_iff_eq.mpr (here b there))
        have others : (rest.flatMap collect).filter (fun b => source b == number a) = [] := by
          refine List.filter_eq_nil_iff.mpr (fun b there => ?_)
          obtain ⟨other, outer, there⟩ := List.mem_flatMap.mp there
          rw [beq_iff_eq, later other outer b there]
          exact fun same => apart (List.mem_map.mpr ⟨other, outer, same⟩)
        rw [own, others, List.append_nil]
      · have others : (collect first).filter (fun b => source b == number a) = [] := by
          refine List.filter_eq_nil_iff.mpr (fun b there => ?_)
          rw [beq_iff_eq, here b there]
          exact fun same => apart (List.mem_map.mpr ⟨a, behind, same.symm⟩)
        rw [others, List.nil_append, ih later distinct behind]

theorem nodup_numbers (distinct : ranked.order.Nodup) (lines : Classification) :
    ((nodesOf ranked lines).map DependencyNode.number).Nodup :=
  List.pairwise_map.mpr ((nodes_pairwise distinct lines).imp (fun less => Nat.ne_of_lt less.1))

theorem filter_target (distinct : ranked.order.Nodup) (lNode : l ∈ nodesOf ranked lines) :
    (ofRanked ranked lines).edges.filter (fun edge => edge.target == l.number) =
      edgesInto ranked (nodesOf ranked lines) l := by
  refine filter_flatMap_of_mem DependencyNode.number (fun node _ edge member => ?_) (nodup_numbers distinct lines) lNode
  obtain ⟨resource, _, found⟩ := List.mem_filterMap.mp member
  obtain ⟨source, _, rfl⟩ := Option.map_eq_some_iff.mp found
  rfl

theorem map_line_nodesIn (distinct : ranked.order.Nodup) (member : id ∈ ranked.order) :
    ((ofRanked ranked lines).nodesIn id).map DependencyNode.line = (ranked.graph.block id).lines.filterMap
      (TouchedLine.ofLine? lines (ranked.graph.block id).bindings) := by
  have own : (touchedLines ranked lines).filter (fun entry => entry.1 == id) =
      ((ranked.graph.block id).lines.filterMap (TouchedLine.ofLine? lines (ranked.graph.block id).bindings)).map
        (fun touched => (id, touched)) := by
    refine filter_flatMap_of_mem (fun id => id) (fun other _ entry there => ?_) ?_ member
    · obtain ⟨touched, _, rfl⟩ := List.mem_map.mp there
      rfl
    · rwa [List.map_id']
  have all : (nodesOf ranked lines).map (fun node => (node.block, node.line)) = touchedLines ranked lines := by
    change ((touchedLines ranked lines).zipIdx.map _).map _ = _
    rw [List.map_map]
    exact List.zipIdx_map_fst 0 _
  rw [← all, List.filter_map] at own
  have read := congrArg (List.map Prod.snd) own
  rw [List.map_map, List.map_map] at read
  exact read.trans (List.map_id' _)

theorem nodup_resources (lNode : l ∈ nodesOf ranked lines) : l.line.resources.Nodup := by
  obtain ⟨_, line, _, read⟩ := exists_node_iff.mp ⟨l, lNode, rfl, rfl⟩
  obtain ⟨classified, _, same⟩ := Option.map_eq_some_iff.mp read
  rw [← same, TouchedLine.resources]
  have memory : Function.Injective Resource.memory := fun _ _ => Resource.memory.inj
  have qubit : Function.Injective Resource.qubit := fun _ _ => Resource.qubit.inj
  refine List.nodup_append.mpr ⟨(Sorted.increasing_ofList _).nodup.map memory,
    (Sorted.increasing_ofList _).nodup.map qubit, ?_⟩
  rintro a aMember b bMember rfl
  obtain ⟨_, _, rfl⟩ := List.mem_map.mp aMember
  obtain ⟨_, _, same⟩ := List.mem_map.mp bMember
  cases same

section Ranked

variable (numbered : ranked.Numbered) (chained : ranked.Chained)
include numbered chained

theorem exists_of_mem_edges {edge : DependencyEdge} (member : edge ∈ (ofRanked ranked lines).edges) :
    ∃ source ∈ nodesOf ranked lines, ∃ target ∈ nodesOf ranked lines,
      edge.source = source.number ∧ edge.target = target.number ∧ InFront ranked source target := by
  obtain ⟨target, tNode, member⟩ := List.mem_flatMap.mp member
  obtain ⟨resource, _, found⟩ := List.mem_filterMap.mp member
  obtain ⟨source, nearest, rfl⟩ := Option.map_eq_some_iff.mp found
  obtain ⟨sNode, front⟩ := (mem_before numbered chained tNode).mp (List.mem_of_find?_eq_some nearest)
  exact ⟨source, sNode, target, tNode, rfl, rfl, front⟩

/-- Edges lead to higher numbers, so no path of them comes back. -/
theorem Orders.number_lt (orders : (ofRanked ranked lines).Orders k l) : k.number < l.number := by
  have step : (fun a b => ∃ edge ∈ (ofRanked ranked lines).edges, edge.source = a ∧ edge.target = b) ≤
      fun a b : Nat => a < b := by
    rintro _ _ ⟨edge, member, rfl, rfl⟩
    obtain ⟨source, sNode, target, tNode, same, same', front⟩ := exists_of_mem_edges numbered chained member
    rw [same, same']
    exact DependencyGraph.number_lt numbered chained sNode tNode front
  exact Relation.transGen_minimal step k.number l.number orders

end Ranked

/-- The block of a node stands in the region of each node that the node is in front of. -/
theorem InFront.leadsTo_iff (straight : ranked.Straight) (front : InFront ranked k l) (member : l.block ∈ ranked.order)
    {root : Nat} (there : root ∈ ranked.startBlocks) :
    ranked.graph.LeadsTo root k.block ↔ ranked.graph.LeadsTo root l.block := by
  rcases front with ⟨same, _⟩ | dominates
  · rw [same]
  · obtain ⟨start, begins, way, leads⟩ := straight.reachable.mp member
    have passed := ((straight.dominators begins ⟨way, leads⟩).mp dominates).2 way leads
    obtain ⟨first, leads', _⟩ := leads.arrival passed
    constructor
    · intro further
      exact straight.apart there begins further ⟨_, leads'⟩ ▸ ⟨way, leads⟩
    · intro further
      exact straight.apart there begins further ⟨way, leads⟩ ▸ ⟨_, leads'⟩

end DependencyGraph

namespace HybridProgram

open DependencyGraph

variable {root : Tree} {text : String} {readout : List String} {program : HybridProgram}

/-- Whether the dependencies of a program come from the last lines that touch a name on the path to a line. -/
structure DependsOnLastTouches (program : HybridProgram) : Prop where
  /-- Each ranked block keeps one branch at most. -/
  few : ∀ id ∈ program.ranked.order, (program.ranked.graph.branches id).length ≤ 1
  /-- One simple path leads to each ranked block. -/
  path : ∀ id ∈ program.ranked.order, ∃! path, program.ranked.SimplePath path id
  /-- The nodes are the classified lines of the ranked blocks, and each one has a number of its own. -/
  lines : ∀ id ∈ program.ranked.order, (program.dependencies.nodesIn id).map DependencyNode.line =
    (program.ranked.graph.block id).lines.filterMap
      (TouchedLine.ofLine? program.lines (program.ranked.graph.block id).bindings)
  inside : ∀ node ∈ program.dependencies.nodes, node.block ∈ program.ranked.order
  numbers : (program.dependencies.nodes.map DependencyNode.number).Nodup
  /-- For each resource that a line names, one edge leads to it from the last line before it on its path that touches the
      resource. Where no line on the path does, none leads to it, and there are no other edges. -/
  edges : ∀ node ∈ program.dependencies.nodes, ∀ path, program.ranked.SimplePath path node.block →
    program.dependencies.edges.filter (fun edge => edge.target == node.number) =
      node.line.resources.filterMap (fun resource => (program.dependencies.lastTouch? path node resource).map
        (fun source => ⟨source.number, node.number, resource.name⟩))
  once : ∀ node ∈ program.dependencies.nodes, node.line.resources.Nodup
  /-- Every edge leads from a line to a line of the same region. -/
  regions : ∀ edge ∈ program.dependencies.edges, ∃ source ∈ program.dependencies.nodes,
    ∃ target ∈ program.dependencies.nodes, edge.source = source.number ∧ edge.target = target.number ∧
      ∀ root ∈ program.ranked.startBlocks,
        program.ranked.graph.LeadsTo root source.block ↔ program.ranked.graph.LeadsTo root target.block
  acyclic : ∀ node, ¬ program.dependencies.Orders node node

/-- Where each instruction has its line to itself and instructions are nested only in the bodies of circuits, the
    dependencies of a program come from last touches. -/
theorem dependencies_from_last_touches (own : root.OwnLines) (nested : root.NestsInBodies)
    (built : ofTree root text readout = .ok program) : program.DependsOnLastTouches := by
  obtain ⟨graph, made, rest⟩ := Result.of_bind_eq_ok built
  obtain ⟨ranked, ranks, rest⟩ := Result.of_bind_eq_ok rest
  cases rest
  have wf := Level.wellFormed_ofTree root
  have fresh := (BlockGraph.fresh_ofLevel made).1
  have inhabited := BlockGraph.inhabited_ofLevel made
  obtain ⟨other, ranks', _, numbered⟩ := BlockGraph.rank_unfolds fresh inhabited (Classification.ofTree root)
  cases ranks.symm.trans ranks'
  have chained := BlockGraph.rank_chained fresh inhabited ranks
  have straight := BlockGraph.rank_straight wf (Level.conditionsClassified_ofTree own nested) made ranks
  exact {
    few := fun id _ => straight.few id
    path := fun id member => straight.existsUnique_path member
    lines := fun id member => map_line_nodesIn numbered.distinct member
    inside := fun node member => block_mem_order member
    numbers := nodup_numbers numbered.distinct _
    edges := fun node member path simple =>
      (filter_target numbered.distinct member).trans (edgesInto_eq numbered chained straight member simple)
    once := fun node member => nodup_resources member
    regions := by
      intro edge member
      obtain ⟨source, sNode, target, tNode, same, same', front⟩ := exists_of_mem_edges numbered chained member
      exact ⟨source, sNode, target, tNode, same, same',
        fun start there => front.leadsTo_iff straight (block_mem_order tNode) there⟩
    acyclic := fun node orders => Nat.lt_irrefl _ (orders.number_lt numbered chained) }

/-- Turn a qubit by an angle until it is measured as zero, and turn it back. -/
def turningStatements : List Statement :=
  [.classical "MOVE" ["r[0]", "1"],
    .defCircuit "TURN" ["q"] [.label "again", .gate "RX" ["r[0]"] ["q"], .measure "q" (some "c[0]"),
      .jumpWhen "again" "c[0]"],
    .gate "TURN" [] ["0"], .classical "NEG" ["r[0]"], .gate "RX" ["r[0]"] ["0"]]

/-- The copy of the turn does not depend on the assignment, since it begins a region of its own. -/
theorem turning_dependencies : ∃ program, (Draft.ofStatements turningStatements).tree.OwnLines ∧
    (Draft.ofStatements turningStatements).tree.NestsInBodies ∧
    ofTree (Draft.ofStatements turningStatements).tree (Draft.ofStatements turningStatements).source [] = .ok program ∧
    program.DependsOnLastTouches ∧ program.ranked.startBlocks = [0, 5, 6] ∧ program.dependencies.edges =
      [⟨0, 2, "r[0]"⟩, ⟨2, 3, "0"⟩, ⟨3, 4, "c[0]"⟩, ⟨6, 7, "0"⟩, ⟨7, 8, "c[0]"⟩, ⟨9, 10, "r[0]"⟩] := by
  have own : (Draft.ofStatements turningStatements).tree.OwnLines := by decide +kernel
  have nested : (Draft.ofStatements turningStatements).tree.NestsInBodies :=
    ⟨by decide +kernel, fun instruction => absurd instruction (by decide +kernel)⟩
  have computed : ((ofTree (Draft.ofStatements turningStatements).tree (Draft.ofStatements turningStatements).source
      []).toOption.map fun program => (program.ranked.startBlocks, program.dependencies.edges)) = some ([0, 5, 6],
        [⟨0, 2, "r[0]"⟩, ⟨2, 3, "0"⟩, ⟨3, 4, "c[0]"⟩, ⟨6, 7, "0"⟩, ⟨7, 8, "c[0]"⟩, ⟨9, 10, "r[0]"⟩]) := by
    decide +kernel
  obtain ⟨program, built, same⟩ := Option.map_eq_some_iff.mp computed
  have built := Result.of_toOption_eq_some built
  obtain ⟨starts, edges⟩ := Prod.mk.inj same
  exact ⟨program, own, nested, built, dependencies_from_last_touches own nested built, starts, edges⟩

end HybridProgram

end TwoLane
