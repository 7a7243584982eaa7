import TwoLane.Proofs.Block.Dominators

/-! # Regions of ranked graphs

Each ranked block can be reached from the start of one region and of no other. So the regions take up the ranks one after the
other, each of them from its start on, and in its region a block is dominated by exactly the blocks that no way to it
avoids.
-/

namespace TwoLane

namespace BlockGraph

variable {graph later broken : BlockGraph} {starts before behind : List Nat} {root other id d rank : Nat} {way : List Nat}

/-! ## Ways in marked graphs -/

theorem Way.congr (same : later.branches = graph.branches) (leads : graph.Way root way id) : later.Way root way id := by
  induction leads with
  | start => exact .start
  | onward _ branches ih => exact .onward ih (same ▸ branches)

theorem Marked.way_iff (marked : Marked graph later) : later.Way root way id ↔ graph.Way root way id :=
  ⟨Way.congr marked.branches.symm, Way.congr marked.branches⟩

theorem Marked.dominates_iff (marked : Marked graph later) : later.Dominates root d id ↔ graph.Dominates root d id := by
  simp only [Dominates, marked.way_iff]

theorem Starts.mem_region_iff (regions : Starts broken starts) (boundaries : List Nat) (there : root ∈ starts) :
    id ∈ broken.region root ↔ (broken.ranking starts boundaries).graph.LeadsTo root id := by
  simp only [LeadsTo, (marked_ranking broken starts boundaries).way_iff]
  exact BlockGraph.mem_region_iff regions.stays (regions.inside root there)

theorem Starts.region_unique (regions : Starts broken starts) (there : root ∈ starts) (there' : other ∈ starts)
    (member : id ∈ broken.region root) (member' : id ∈ broken.region other) : root = other := by
  have low := ((regions.of_mem_region there id member).2 other there').mp
    (((regions.of_mem_region there' id member').2 other there').mpr (Nat.le_refl _))
  have high := ((regions.of_mem_region there' id member').2 root there).mp
    (((regions.of_mem_region there id member).2 root there).mpr (Nat.le_refl _))
  omega

/-! ## Ranks of regions -/

theorem getElem?_regionRanks (graph : BlockGraph) (first root : Nat) (before behind : List Nat) :
    (graph.regionRanks first (before ++ root :: behind))[before.length]? =
      some (first + (before.flatMap graph.region).length) := by
  induction before generalizing first with
  | nil => simp [regionRanks]
  | cons other before ih => simp [regionRanks, ih, Nat.add_assoc]

theorem end_regionRanks (graph : BlockGraph) (first root : Nat) (before behind : List Nat) :
    ((graph.regionRanks first (before ++ root :: behind))[before.length + 1]?).getD
        (first + ((before ++ root :: behind).flatMap graph.region).length) =
      first + (before.flatMap graph.region).length + (graph.region root).length := by
  induction before generalizing first with
  | nil => cases behind <;> simp [regionRanks]
  | cons other before ih =>
      have further := ih (first + (graph.region other).length)
      simp [regionRanks, Nat.add_assoc] at further ⊢
      exact further

theorem pairwise_regionRanks (inhabited : ∀ root ∈ starts, graph.region root ≠ []) (first : Nat) :
    (graph.regionRanks first starts).Pairwise (· < ·) := by
  induction starts generalizing first with
  | nil => exact .nil
  | cons root rest ih =>
      obtain ⟨some, later⟩ := List.forall_mem_cons.mp inhabited
      have long := List.length_pos_iff.mpr some
      refine .cons (fun rank member => ?_) (ih later _)
      have beyond := le_of_mem_regionRanks member
      omega

theorem Starts.idxOf_of_getElem? (regions : Starts broken starts) (found : (broken.rankedBlocks starts)[rank]? = some id) :
    (broken.rankedBlocks starts).idxOf id = rank := by
  obtain ⟨inside, same⟩ := List.getElem?_eq_some_iff.mp found
  rw [← same]
  exact regions.nodup_rankedBlocks.idxOf_getElem rank inside

/-- The ranks of a region are those between its beginning and its end. -/
theorem Starts.mem_region_of_rank (regions : Starts broken starts) (split : starts = before ++ root :: behind)
    (found : (broken.rankedBlocks starts)[rank]? = some id) : id ∈ broken.region root ↔
      (before.flatMap broken.region).length ≤ rank ∧
        rank < (before.flatMap broken.region).length + (broken.region root).length := by
  constructor
  · intro member
    have offset := List.idxOf_lt_length_of_mem member
    have place := regions.idxOf_of_getElem? found
    rw [regions.idxOf_rankedBlocks split member] at place
    omega
  · rintro ⟨low, high⟩
    rw [rankedBlocks_split split, List.getElem?_append_right low, List.getElem?_append_left (by omega)] at found
    exact List.mem_of_getElem? found

theorem Starts.region_ne_nil (regions : Starts broken starts) (there : root ∈ starts) : broken.region root ≠ [] :=
  List.ne_nil_of_mem (regions.region_complete there).1

theorem Starts.head_region (regions : Starts broken starts) (there : root ∈ starts) :
    ∃ rest, broken.region root = root :: rest := by
  cases found : broken.region root with
  | nil => exact absurd found (regions.region_ne_nil there)
  | cons head rest =>
      have grown : Reach.Grown broken.branches root ([] ++ [head]) := Reach.grown_fromRoot found
      cases grown.head?
      exact ⟨rest, rfl⟩

end BlockGraph

/-! ## Ranked graphs -/

/-- Whether the ranks of a graph number the blocks that its starts lead to, region by region, each block behind its
    dominators. -/
structure RankedGraph.Consistent (ranked : RankedGraph) : Prop where
  distinct : ranked.order.Nodup
  reachable : ∀ id, id ∈ ranked.order ↔ ∃ root ∈ ranked.startBlocks, ranked.graph.LeadsTo root id
  rank : ∀ id i : Nat, ranked.rank? id = some i ↔ ranked.order[i]? = some id
  starts : ranked.startBlocks.Nodup
  bounded : ranked.boundaries.length = ranked.startBlocks.length
  apart : ∀ root ∈ ranked.startBlocks, ∀ other ∈ ranked.startBlocks, root ≠ other → ∀ id,
    ranked.graph.LeadsTo root id → ¬ ranked.graph.LeadsTo other id
  increasing : ranked.boundaries.Pairwise (· < ·)
  begins : ∀ k root boundary : Nat, ranked.startBlocks[k]? = some root → ranked.boundaries[k]? = some boundary →
    ranked.order[boundary]? = some root
  contiguous : ∀ k root boundary : Nat, ranked.startBlocks[k]? = some root → ranked.boundaries[k]? = some boundary →
    ∀ id i, ranked.rank? id = some i → (ranked.graph.LeadsTo root id ↔
      boundary ≤ i ∧ i < (ranked.boundaries[k + 1]?).getD ranked.order.length)
  dominators : ∀ id i, ranked.rank? id = some i → ∀ d ∈ (ranked.graph.block id).dominators,
    (∃ j < i, ranked.rank? d = some j) ∧
      ∀ root ∈ ranked.startBlocks, ranked.graph.LeadsTo root id → ranked.graph.LeadsTo root d

namespace BlockGraph

theorem length_regionRanks (graph : BlockGraph) (first : Nat) (starts : List Nat) :
    (graph.regionRanks first starts).length = starts.length := by
  induction starts generalizing first with
  | nil => rfl
  | cons root rest ih => simp [regionRanks, ih]

theorem consistent_ranking {broken : BlockGraph} {starts : List Nat} (regions : Starts broken starts)
    (unranked : ∀ id, (broken.block id).rank = none) :
    (broken.ranking starts (broken.regionRanks 0 starts)).Consistent := by
  have numbered := numbered_ranking regions unranked (broken.regionRanks 0 starts)
  have leads : ∀ {root id}, root ∈ starts → (id ∈ broken.region root ↔
      (broken.ranking starts (broken.regionRanks 0 starts)).graph.LeadsTo root id) :=
    regions.mem_region_iff (broken.regionRanks 0 starts)
  have rank : ∀ id i : Nat, (broken.ranking starts (broken.regionRanks 0 starts)).rank? id = some i ↔
      (broken.rankedBlocks starts)[i]? = some id := by
    refine fun id i => ⟨numbered.getElem?_of_rank, fun found => ?_⟩
    have member : id ∈ broken.rankedBlocks starts := List.mem_of_getElem? found
    exact (numbered.rank id).trans ((if_pos member).trans (congrArg some (regions.idxOf_of_getElem? found)))
  -- a boundary is the number of blocks in the regions before
  have place : ∀ {k root boundary : Nat}, starts[k]? = some root → (broken.regionRanks 0 starts)[k]? = some boundary →
      ∃ before behind, starts = before ++ root :: behind ∧ before.length = k ∧
        boundary = (before.flatMap broken.region).length := by
    intro k root boundary found found'
    obtain ⟨inside, same⟩ := List.getElem?_eq_some_iff.mp found
    have split : starts = starts.take k ++ root :: starts.drop (k + 1) := by simp [← same]
    have length : (starts.take k).length = k := by simp; omega
    have boundary' := broken.getElem?_regionRanks 0 root (starts.take k) (starts.drop (k + 1))
    rw [← split, length, found', Nat.zero_add] at boundary'
    exact ⟨_, _, split, length, Option.some.inj boundary'⟩
  exact {
    distinct := regions.nodup_rankedBlocks
    reachable := by
      intro id
      change id ∈ starts.flatMap broken.region ↔ _
      rw [List.mem_flatMap]
      exact exists_congr (fun root => and_congr_right (fun there => leads there))
    rank := rank
    starts := regions.order.imp Nat.ne_of_lt
    bounded := length_regionRanks broken 0 starts
    apart := by
      intro root there other there' differ id member member'
      exact differ (regions.region_unique there there' ((leads there).mpr member) ((leads there').mpr member'))
    increasing := pairwise_regionRanks (fun root there => regions.region_ne_nil there) 0
    begins := by
      intro k root boundary found found'
      obtain ⟨before, behind, split, _, rfl⟩ := place found found'
      obtain ⟨rest, first⟩ := regions.head_region (List.mem_of_getElem? found)
      change (broken.rankedBlocks starts)[_]? = _
      rw [rankedBlocks_split split, List.getElem?_append_right (Nat.le_refl _), first]
      simp
    contiguous := by
      intro k root boundary found found' id i ranked
      obtain ⟨before, behind, split, rfl, rfl⟩ := place found found'
      have ends := broken.end_regionRanks 0 root before behind
      rw [← split, Nat.zero_add, Nat.zero_add] at ends
      rw [← leads (List.mem_of_getElem? found), regions.mem_region_of_rank split ((rank id i).mp ranked), ← ends]
      rfl
    dominators := by
      intro id i ranked d dominates
      have found := (rank id i).mp ranked
      obtain ⟨root, there, here⟩ := List.mem_flatMap.mp (List.mem_of_getElem? found)
      obtain ⟨before, behind, split⟩ := List.append_of_mem there
      rw [regions.dominators_ranking _ there here] at dominates
      obtain ⟨inRegion, earlier⟩ := regions.dominator_earlier there here dominates
      have member : d ∈ broken.rankedBlocks starts := List.mem_flatMap.mpr ⟨root, there, inRegion⟩
      have later := regions.idxOf_of_getElem? found
      refine ⟨⟨(broken.rankedBlocks starts).idxOf d, ?_, ?_⟩, fun other there' member' => ?_⟩
      · rw [regions.idxOf_rankedBlocks split here] at later
        rw [regions.idxOf_rankedBlocks split inRegion]
        omega
      · exact (rank d _).mpr (List.getElem?_idxOf member)
      · cases regions.region_unique there there' here ((leads there').mpr member')
        exact (leads there).mp inRegion }

/-- Ranking always succeeds, and numbers the blocks that the starts of regions lead to, region by region. -/
theorem ranking_is_consistent {level : Level} {graph : BlockGraph} (built : BlockGraph.ofLevel level = .ok graph)
    (lines : Classification) : ∃ ranked, graph.rank lines = .ok ranked ∧ ranked.Consistent := by
  obtain ⟨fresh, exits⟩ := fresh_ofLevel built
  have inhabited : start < graph.size := Nat.lt_trans (Nat.lt_succ_self 0) exits
  obtain ⟨_, regions, unranked⟩ := breakLoops_spec fresh inhabited lines
  exact ⟨_, rank_eq_ok fresh inhabited lines, consistent_ranking regions unranked⟩

/-- A conditional jump whose two sides come together in a block that jumps back to itself. -/
def diamondLevel : Level :=
  { Level.ofLines [0, 1, 2, 3, 4, 5] with
    labels := [("left", 2), ("join", 4)]
    conditionalJumps := [(0, "left")]
    jumps := [(1, "join"), (3, "join"), (5, "join")] }

/-- Where the conditional jump is known as one, both of its sides become regions. -/
theorem diamond_ranking_is_consistent : ∃ graph ranked, ofLevel diamondLevel = .ok graph ∧
    graph.rank [(0, ⟨.classicalControl, default⟩)] = .ok ranked ∧ ranked.Consistent ∧
      (ranked.order, ranked.startBlocks, ranked.boundaries) = ([0, 5, 6, 7, 8], [0, 5, 7], [0, 1, 3]) := by
  obtain ⟨graph, built, ranks⟩ : ∃ graph, ofLevel diamondLevel = .ok graph ∧
      (graph.rank [(0, ⟨.classicalControl, default⟩)]).toOption.map
        (fun ranked => (ranked.order, ranked.startBlocks, ranked.boundaries)) =
          some ([0, 5, 6, 7, 8], [0, 5, 7], [0, 1, 3]) := ⟨_, rfl, by decide +kernel⟩
  obtain ⟨ranked, isRanked, consistent⟩ := ranking_is_consistent built [(0, ⟨.classicalControl, default⟩)]
  rw [isRanked] at ranks
  exact ⟨graph, ranked, built, isRanked, consistent, Option.some.inj ranks⟩

/-- After ranking the start of a region has no dominators, and the dominators of a ranked block are the other blocks that
    every way to it from the start of its region passes. -/
theorem dominators_are_exact {level : Level} {graph : BlockGraph} (built : BlockGraph.ofLevel level = .ok graph)
    (lines : Classification) : ∃ ranked, graph.rank lines = .ok ranked ∧
      (∀ root ∈ ranked.startBlocks, (ranked.graph.block root).dominators = []) ∧
      ∀ id ∈ ranked.order, ∃ root ∈ ranked.startBlocks,
        (∀ other ∈ ranked.startBlocks, ranked.graph.LeadsTo other id ↔ other = root) ∧
        ∀ d, d ∈ (ranked.graph.block id).dominators ↔ ranked.graph.Dominates root d id := by
  obtain ⟨fresh, exits⟩ := fresh_ofLevel built
  have inhabited : start < graph.size := Nat.lt_trans (Nat.lt_succ_self 0) exits
  obtain ⟨_, regions, _⟩ := breakLoops_spec fresh inhabited lines
  refine ⟨_, rank_eq_ok fresh inhabited lines, ?_, ?_⟩
  · intro root there
    have own := (regions.region_complete there).1
    rw [regions.dominators_ranking _ there own]
    apply List.eq_nil_iff_forall_not_mem.mpr
    intro d dominates
    exact not_dominates_root ((regions.mem_dominators there own).mp dominates)
  · intro id member
    obtain ⟨root, there, here⟩ := List.mem_flatMap.mp member
    refine ⟨root, there, fun other there' => ?_, fun d => ?_⟩
    · rw [← regions.mem_region_iff _ there']
      exact ⟨fun here' => regions.region_unique there' there here' here, fun same => same ▸ here⟩
    · rw [regions.dominators_ranking _ there here, regions.mem_dominators there here]
      exact (marked_ranking _ _ _).dominates_iff.symm

/-- Where nothing is known of the conditional jump, its sides stay in one region and neither of them dominates the block in
    which they come together. -/
theorem diamond_dominators_are_exact : ∃ graph ranked, ofLevel diamondLevel = .ok graph ∧
    graph.rank [] = .ok ranked ∧ ∀ d, ranked.graph.Dominates start d 4 ↔ d = start := by
  obtain ⟨graph, built, ranks⟩ : ∃ graph, ofLevel diamondLevel = .ok graph ∧
      (graph.rank []).toOption.map
        (fun ranked => (ranked.order, ranked.startBlocks, (ranked.graph.block 4).dominators)) =
          some ([0, 2, 3, 4], [start], [start]) := ⟨_, rfl, by decide +kernel⟩
  obtain ⟨ranked, isRanked, _, exact'⟩ := dominators_are_exact built []
  rw [isRanked] at ranks
  obtain ⟨order, rest⟩ := Prod.mk.inj (Option.some.inj ranks)
  obtain ⟨starts, found⟩ := Prod.mk.inj rest
  obtain ⟨root, there, _, all⟩ := exact' 4 (by simp [order])
  have only : root = start := by simpa [starts] using there
  refine ⟨graph, ranked, built, isRanked, fun d => ?_⟩
  rw [← only, ← all, found]
  simp [only]

end BlockGraph

end TwoLane
