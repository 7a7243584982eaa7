import TwoLane.Proofs.Block.Fresh
import TwoLane.Proofs.Block.Ranks

/-! # Ranked graphs unfold the original one

Ranking succeeds. The ranked blocks are those of the regions, and what a ranked block leads to, directly or around a
loop, is ranked again and comes from what its origin leads to. So the same is seen along the paths of both graphs.
-/

namespace TwoLane

namespace BlockGraph

open Reach

variable {graph broken : BlockGraph} {starts : List Nat} {id root : Nat}

/-! ## Regions -/

theorem Starts.region_complete (regions : Starts broken starts) (member : root ∈ starts) :
    root ∈ broken.region root ∧ ∀ id ∈ broken.region root, ∀ target ∈ broken.branches id, target ∈ broken.region root :=
  fromRoot_complete (branches_lt regions.stays) (regions.inside root member)

theorem Starts.of_mem_region (regions : Starts broken starts) (member : root ∈ starts) :
    ∀ id ∈ broken.region root, id < broken.size ∧ ∀ other ∈ starts, other ≤ id ↔ other ≤ root := by
  refine breadthFirst_induction broken.size ?_ ?_
  · rintro id ⟨inside, part⟩ target leads
    refine ⟨regions.stays id inside target leads, fun other there => ?_⟩
    exact (regions.apart other there id inside target leads).trans (part other there)
  · intro id first
    rw [List.mem_singleton.mp first]
    exact ⟨regions.inside root member, fun _ _ => Iff.rfl⟩

theorem Starts.apart_regions (regions : Starts broken starts) :
    starts.Pairwise (fun a b => List.Disjoint (broken.region a) (broken.region b)) := by
  refine regions.order.imp_of_mem ?_
  intro a b aStarts bStarts less id inA inB
  have below := ((regions.of_mem_region aStarts id inA).2 b bStarts).not.mpr (Nat.not_le.mpr less)
  exact below (((regions.of_mem_region bStarts id inB).2 b bStarts).mpr (Nat.le_refl _))

def rankedBlocks (broken : BlockGraph) (starts : List Nat) : List Nat :=
  starts.flatMap broken.region

theorem Starts.nodup_rankedBlocks (regions : Starts broken starts) : (broken.rankedBlocks starts).Nodup :=
  List.nodup_flatMap.mpr ⟨fun root _ => nodup_fromRoot _ root, regions.apart_regions⟩

theorem Starts.lt_of_mem (regions : Starts broken starts) (member : id ∈ broken.rankedBlocks starts) :
    id < broken.size := by
  obtain ⟨root, there, here⟩ := List.mem_flatMap.mp member
  exact (regions.of_mem_region there id here).1

theorem Starts.flow_ranked (regions : Starts broken starts) (member : id ∈ broken.rankedBlocks starts) :
    ∀ target ∈ (broken.block id).flow, target ∈ broken.rankedBlocks starts := by
  intro target leads
  obtain ⟨root, there, here⟩ := List.mem_flatMap.mp member
  rcases List.mem_append.mp leads with direct | around
  · exact List.mem_flatMap.mpr ⟨root, there, (regions.region_complete there).2 id here target direct⟩
  · have own := regions.loops id (regions.lt_of_mem member) target around
    exact List.mem_flatMap.mpr ⟨target, own, (regions.region_complete own).1⟩

theorem Starts.first_ranked (regions : Starts broken starts) : (broken.rankedBlocks starts).head? = some start := by
  have begins := regions.first
  cases starts with
  | nil => cases begins
  | cons first rest =>
      cases begins
      have here := (regions.region_complete List.mem_cons_self).1
      rw [rankedBlocks, List.flatMap_cons]
      cases found : broken.region start with
      | nil => rw [found] at here; cases here
      | cons head behind =>
          have grown : Grown broken.branches start ([] ++ [head]) := grown_fromRoot found
          exact grown.head?

end BlockGraph

/-! ## Ranking -/

/-- Whether a ranked graph has the blocks and the flow of another graph. -/
structure RankedGraph.Unfolds (ranked : RankedGraph) (graph : BlockGraph) : Prop where
  start : ranked.rank? BlockGraph.start = some 0
  entry : ranked.graph.origin BlockGraph.start = BlockGraph.start
  name : ∀ id, (ranked.rank? id).isSome = true →
    (ranked.graph.block id).name = (graph.block (ranked.graph.origin id)).name
  lines : ∀ id, (ranked.rank? id).isSome = true →
    (ranked.graph.block id).lines = (graph.block (ranked.graph.origin id)).lines
  bindings : ∀ id, (ranked.rank? id).isSome = true →
    (ranked.graph.block id).bindings = (graph.block (ranked.graph.origin id)).bindings
  onward : ∀ id, (ranked.rank? id).isSome = true →
    ∀ target ∈ (ranked.graph.block id).flow, (ranked.rank? target).isSome = true
  flow : ∀ id, (ranked.rank? id).isSome = true →
    (ranked.graph.block id).flow.map ranked.graph.origin = graph.branches (ranked.graph.origin id)

/-- Where each block of an order is ranked at its position, and no other block is ranked. -/
structure RankedGraph.Numbered (ranked : RankedGraph) : Prop where
  distinct : ranked.order.Nodup
  rank : ∀ id, ranked.rank? id = if id ∈ ranked.order then some (ranked.order.idxOf id) else none

variable {ranked : RankedGraph} {graph : BlockGraph} {id i : Nat}

theorem RankedGraph.Numbered.isSome_rank (numbered : ranked.Numbered) :
    (ranked.rank? id).isSome = true ↔ id ∈ ranked.order := by
  rw [numbered.rank]
  split
  · next member => simp [member]
  · next absent => simp [absent]

theorem RankedGraph.Numbered.getElem?_of_rank (numbered : ranked.Numbered) (found : ranked.rank? id = some i) :
    ranked.order[i]? = some id := by
  have member := numbered.isSome_rank.mp (Option.isSome_of_eq_some found)
  rw [numbered.rank, if_pos member] at found
  cases found
  simp [List.getElem?_idxOf, member]

namespace BlockGraph

variable {broken : BlockGraph} {starts : List Nat}

/-- The ranked graph that broken loops give. -/
def ranking (broken : BlockGraph) (starts boundaries : List Nat) : RankedGraph :=
  ⟨(broken.dominated starts).setRanks (broken.rankedBlocks starts), broken.rankedBlocks starts, starts, boundaries⟩

theorem marked_ranking (broken : BlockGraph) (starts boundaries : List Nat) :
    Marked broken (broken.ranking starts boundaries).graph :=
  (broken.marked_dominated starts).trans (marked_setRanks _ _)

theorem Starts.dominators_ready (regions : Starts broken starts) : ∀ root ∈ starts, ∀ before id behind,
    (broken.dominated starts).region root = before ++ id :: behind →
      ((broken.dominated starts).block id).dominators ⊆ [] ++ before := by
  intro root member before id behind split other dominates
  rw [(broken.marked_dominated starts).region] at split
  have here : id ∈ broken.region root := split ▸ List.mem_append_right _ List.mem_cons_self
  have inside := (regions.of_mem_region member id here).1
  rw [(dominators_dominated regions.apart_regions inside).1 root member here] at dominates
  exact dominator_before regions.stays (regions.inside root member) split dominates

theorem Starts.rankRegions_eq (regions : Starts broken starts) : (broken.dominated starts).rankRegions [] starts =
    .ok (broken.rankedBlocks starts, broken.regionRanks 0 starts) := by
  have same := (broken.marked_dominated starts).region
  rw [BlockGraph.rankRegions_eq regions.dominators_ready, same, regionRanks_congr same]
  rfl

theorem numbered_ranking (regions : Starts broken starts) (unranked : ∀ id, (broken.block id).rank = none)
    (boundaries : List Nat) : (broken.ranking starts boundaries).Numbered := by
  have marked := broken.marked_dominated starts
  refine ⟨regions.nodup_rankedBlocks, fun id => ?_⟩
  rw [RankedGraph.rank?, ranking]
  dsimp only
  by_cases inside : id < broken.size
  · rw [rank_setRanks regions.nodup_rankedBlocks (marked.size.symm ▸ inside), rank_dominated, unranked]
  · have outside := (marked_ranking broken starts boundaries).size.symm ▸ Nat.le_of_not_lt inside
    rw [if_neg (fun member => inside (regions.lt_of_mem member))]
    exact congrArg Block.rank (block_of_le outside)

theorem unfolds_ranking (unrolled : Unrolled graph broken) (regions : Starts broken starts)
    (inhabited : start < graph.size) {boundaries : List Nat}
    (numbered : (broken.ranking starts boundaries).Numbered) : (broken.ranking starts boundaries).Unfolds graph := by
  have marked := marked_ranking broken starts boundaries
  have inside : ∀ {id}, ((broken.ranking starts boundaries).rank? id).isSome = true → id < broken.size :=
    fun ranked => regions.lt_of_mem (numbered.isSome_rank.mp ranked)
  have body : ∀ id, ((broken.ranking starts boundaries).rank? id).isSome = true →
      ((broken.ranking starts boundaries).graph.block id).body =
        (graph.block ((broken.ranking starts boundaries).graph.origin id)).body := by
    intro id ranked
    rw [marked.body, marked.origin]
    exact unrolled.body id (inside ranked)
  exact {
    start := by
      have first := regions.first_ranked
      rw [numbered.rank]
      change (if _ ∈ broken.rankedBlocks starts then some ((broken.rankedBlocks starts).idxOf _) else none) = _
      cases split : broken.rankedBlocks starts with
      | nil => rw [split] at first; cases first
      | cons head rest =>
          rw [split] at first
          cases first
          rw [if_pos List.mem_cons_self, List.idxOf_cons_self]
    entry := by
      rw [marked.origin]
      exact unrolled.own start inhabited
    name := fun id ranked => congrArg Prod.fst (body id ranked)
    lines := fun id ranked => congrArg (fun body => body.2.1) (body id ranked)
    bindings := fun id ranked => congrArg (fun body => body.2.2) (body id ranked)
    onward := by
      intro id ranked target leads
      rw [marked.flow] at leads
      exact numbered.isSome_rank.mpr (regions.flow_ranked (numbered.isSome_rank.mp ranked) target leads)
    flow := by
      intro id ranked
      rw [marked.flow, marked.origin]
      exact unrolled.flow id (inside ranked) }

theorem rank_eq_ok (fresh : graph.Fresh) (inhabited : start < graph.size) (lines : Classification) :
    graph.rank lines = .ok ((graph.breakLoops lines).1.ranking (graph.breakLoops lines).2
      ((graph.breakLoops lines).1.regionRanks 0 (graph.breakLoops lines).2)) := by
  obtain ⟨_, regions, _⟩ := breakLoops_spec fresh inhabited lines
  rw [rank]
  change (((graph.breakLoops lines).1.dominated (graph.breakLoops lines).2).rankRegions [] (graph.breakLoops lines).2 >>=
    _) = _
  rw [regions.rankRegions_eq]
  rfl

theorem rank_unfolds (fresh : graph.Fresh) (inhabited : start < graph.size) (lines : Classification) :
    ∃ ranked, graph.rank lines = .ok ranked ∧ ranked.Unfolds graph ∧ ranked.Numbered := by
  obtain ⟨unrolled, regions, unranked⟩ := breakLoops_spec fresh inhabited lines
  have numbered := numbered_ranking regions unranked ((graph.breakLoops lines).1.regionRanks 0 (graph.breakLoops lines).2)
  exact ⟨_, rank_eq_ok fresh inhabited lines, unfolds_ranking unrolled regions inhabited numbered, numbered⟩

end BlockGraph

end TwoLane
