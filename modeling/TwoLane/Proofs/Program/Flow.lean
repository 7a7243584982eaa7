import TwoLane.Proofs.Block.Unfolding
import TwoLane.Proofs.Program.Lists

/-! # Breaking loops keeps all paths

The ranked blocks lead to each other as their origins do, so the same names and lines are seen along the paths of the
graph of a level, along those of the ranked graph, and along the successors of the lists of a program.
-/

namespace TwoLane

/-! ## What is seen on paths -/

/-- The views of the nodes that a finite path from a node passes. -/
inductive Seen {α : Type} (next : Nat → List Nat) (view : Nat → α) : Nat → List α → Prop where
  | stop (id : Nat) : Seen next view id [view id]
  | go {id target : Nat} {seen : List α} : target ∈ next id → Seen next view target seen →
      Seen next view id (view id :: seen)

variable {α : Type} {next next' : Nat → List Nat} {view view' : Nat → α} {origin : Nat → Nat} {live : Nat → Prop}
  {id : Nat} {seen : List α}

/-- Nodes that lead on as their origins do see the same. -/
theorem seen_iff (flow : ∀ id, live id → (next' id).map origin = next (origin id))
    (onward : ∀ id, live id → ∀ target ∈ next' id, live target) (views : ∀ id, live id → view' id = view (origin id))
    (alive : live id) : Seen next' view' id seen ↔ Seen next view (origin id) seen := by
  constructor
  · intro sees
    induction sees with
    | stop id =>
        rw [views id alive]
        exact .stop _
    | @go id target seen leads _ ih =>
        rw [views id alive]
        exact .go (flow id alive ▸ List.mem_map_of_mem leads) (ih (onward id alive target leads))
  · intro sees
    generalize from' : origin id = node at sees
    induction sees generalizing id with
    | stop node =>
        rw [← from', ← views id alive]
        exact .stop _
    | @go node target seen leads _ ih =>
        rw [← from', ← flow id alive] at leads
        obtain ⟨target', leads', same⟩ := List.mem_map.mp leads
        rw [← from', ← views id alive]
        exact .go leads' (ih (onward id alive target' leads') same)

/-! ## Paths of programs -/

def BlockGraph.label (graph : BlockGraph) (id : Nat) : String × List Nat :=
  ((graph.block id).name, (graph.block id).lines)

namespace HybridProgram

/-- The lists of ranked blocks, in the order of their ranks. -/
def listsOf (ranked : RankedGraph) (lines : Classification) (source : List String) : List InstructionList :=
  ranked.order.map (listOf ranked lines source)

/-- The lists that follow the one at a position. -/
def successorsAt (lists : List InstructionList) (i : Nat) : List Nat :=
  ((lists[i]?).getD default).successors

/-- The name of the list at a position and the lines of the block that it was made from. -/
def labelAt (ranked : RankedGraph) (lists : List InstructionList) (i : Nat) : String × List Nat :=
  (((lists[i]?).getD default).name, (ranked.graph.block ((lists[i]?).getD default).block).lines)

variable {ranked : RankedGraph} {graph : BlockGraph} {lines : Classification} {source : List String} {i : Nat}

theorem getElem?_listsOf (found : ranked.order[i]? = some id) :
    (listsOf ranked lines source)[i]? = some (listOf ranked lines source id) := by
  rw [listsOf, List.getElem?_map, found, Option.map_some]

theorem isSome_rank_of_getElem? (numbered : ranked.Numbered) (found : ranked.order[i]? = some id) :
    (ranked.rank? id).isSome = true :=
  numbered.isSome_rank.mpr (List.mem_of_getElem? found)

/-- The lists lead to each other as the origins of their blocks do. -/
theorem seen_lists_iff (unfolds : ranked.Unfolds graph) (numbered : ranked.Numbered) (seen : List (String × List Nat)) :
    Seen (successorsAt (listsOf ranked lines source)) (labelAt ranked (listsOf ranked lines source)) 0 seen ↔
      Seen graph.branches graph.label BlockGraph.start seen := by
  have first := numbered.getElem?_of_rank unfolds.start
  have origin : ∀ {k id : Nat}, ranked.order[k]? = some id →
      ranked.graph.origin ((ranked.order[k]?).getD 0) = ranked.graph.origin id := by
    intro k id found
    rw [found, Option.getD_some]
  have live : ∀ {k}, k < ranked.order.length → ∃ id, ranked.order[k]? = some id :=
    fun inside => ⟨_, List.getElem?_eq_getElem inside⟩
  have sees := @seen_iff _ graph.branches (successorsAt (listsOf ranked lines source)) graph.label
    (labelAt ranked (listsOf ranked lines source)) (fun k => ranked.graph.origin ((ranked.order[k]?).getD 0))
    (fun k => k < ranked.order.length) 0 seen
  rw [origin first, unfolds.entry] at sees
  refine sees ?_ ?_ ?_ (List.getElem?_eq_some_iff.mp first).1
  · intro k inside
    obtain ⟨id, found⟩ := live inside
    have ranks := isSome_rank_of_getElem? numbered found
    rw [origin found, ← unfolds.flow id ranks, successorsAt, getElem?_listsOf found, Option.getD_some]
    change (ranked.flowRanks id).map _ = _
    rw [RankedGraph.flowRanks, List.map_filterMap]
    refine List.filterMap_eq_map_iff_forall_eq_some.mpr (fun target leads => ?_)
    obtain ⟨rank, isRank⟩ := Option.isSome_iff_exists.mp (unfolds.onward id ranks target leads)
    rw [isRank, Option.map_some, origin (numbered.getElem?_of_rank isRank)]
  · intro k inside target leads
    obtain ⟨id, found⟩ := live inside
    rw [successorsAt, getElem?_listsOf found, Option.getD_some] at leads
    obtain ⟨_, _, isRank⟩ := List.mem_filterMap.mp (show target ∈ ranked.flowRanks id from leads)
    exact (List.getElem?_eq_some_iff.mp (numbered.getElem?_of_rank isRank)).1
  · intro k inside
    obtain ⟨id, found⟩ := live inside
    have ranks := isSome_rank_of_getElem? numbered found
    rw [origin found, labelAt, getElem?_listsOf found, Option.getD_some, BlockGraph.label, ← unfolds.name id ranks,
      ← unfolds.lines id ranks]
    rfl

theorem seen_blocks_iff (unfolds : ranked.Unfolds graph) (seen : List (String × List Nat)) :
    Seen (fun id => (ranked.graph.block id).flow) ranked.graph.label BlockGraph.start seen ↔
      Seen graph.branches graph.label BlockGraph.start seen := by
  have sees := @seen_iff _ graph.branches (fun id => (ranked.graph.block id).flow) graph.label ranked.graph.label
    ranked.graph.origin (fun id => (ranked.rank? id).isSome = true) BlockGraph.start seen
  rw [unfolds.entry] at sees
  refine sees unfolds.flow unfolds.onward (fun id ranks => ?_) (Option.isSome_of_eq_some unfolds.start)
  rw [BlockGraph.label, BlockGraph.label, unfolds.name id ranks, unfolds.lines id ranks]

/-- The graph of a level can be ranked. The ranked blocks have the names, lines, bindings and flow of their origins,
    and the paths of the ranked graph and of the lists are those of the graph. -/
theorem ranking_keeps_paths {level : Level} (built : BlockGraph.ofLevel level = .ok graph) (lines : Classification) :
    ∃ ranked, graph.rank lines = .ok ranked ∧ ranked.Unfolds graph ∧
      (∀ seen, Seen (fun id => (ranked.graph.block id).flow) ranked.graph.label BlockGraph.start seen ↔
        Seen graph.branches graph.label BlockGraph.start seen) ∧
      ∀ source, (∀ list ∈ listsOf ranked lines source, list.lines =
          (ranked.graph.block list.block).lines.filter (fun line => Table.contains line lines)) ∧
        ∀ seen, Seen (successorsAt (listsOf ranked lines source)) (labelAt ranked (listsOf ranked lines source)) 0
            seen ↔
          Seen graph.branches graph.label BlockGraph.start seen := by
  obtain ⟨fresh, exits⟩ := BlockGraph.fresh_ofLevel built
  obtain ⟨ranked, ranks, unfolds, numbered⟩ :=
    BlockGraph.rank_unfolds fresh (Nat.lt_trans (Nat.lt_succ_self 0) exits) lines
  refine ⟨ranked, ranks, unfolds, seen_blocks_iff unfolds, fun source => ⟨?_, seen_lists_iff unfolds numbered⟩⟩
  intro list member
  obtain ⟨id, _, rfl⟩ := List.mem_map.mp member
  exact lines_listOf ranked lines source id

/-- A program that goes back to its first line if a value says so. -/
def backLevel : Level :=
  { Level.ofLines [0, 1, 2] with labels := [("loop", 0)], conditionalJumps := [(1, "loop")] }

def backLines : Classification :=
  [(0, ⟨.control, default⟩), (1, ⟨.classicalControl, default⟩), (2, ⟨.classical, default⟩)]

theorem backLevel_keeps_paths : ∃ graph ranked, BlockGraph.ofLevel backLevel = .ok graph ∧
    graph.rank backLines = .ok ranked ∧ ranked.Unfolds graph ∧
      Seen (successorsAt (listsOf ranked backLines [])) (labelAt ranked (listsOf ranked backLines [])) 0
        [("start", [0, 1]), ("loop", [0, 1]), ("loop", [0, 1]), ("after.1", [2]), ("halt", [])] := by
  obtain ⟨graph, built, sees⟩ : ∃ graph, BlockGraph.ofLevel backLevel = .ok graph ∧
      Seen graph.branches graph.label BlockGraph.start
        [("start", [0, 1]), ("loop", [0, 1]), ("loop", [0, 1]), ("after.1", [2]), ("halt", [])] := by
    refine ⟨_, rfl, ?_⟩
    have around : (2 : Nat) ∈ [2, 3] := by decide
    have behind : (3 : Nat) ∈ [2, 3] := by decide
    have last : (1 : Nat) ∈ [1] := by decide
    exact .go around (.go around (.go behind (.go last (.stop 1))))
  obtain ⟨ranked, ranks, unfolds, _, lists⟩ := ranking_keeps_paths built backLines
  exact ⟨graph, ranked, built, ranks, unfolds, ((lists []).2 _).mpr sees⟩

end HybridProgram

end TwoLane
