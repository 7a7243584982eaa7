import TwoLane.Block.Dependency
import TwoLane.Proofs.Block.Unfolding
import TwoLane.Proofs.Sorted

/-! # Dominators of ranked blocks

The dominators of a block stand in its region and are ranked before it, and they form a chain: the one that is ranked
earlier dominates the other one. So the way through the dominators of a block is the same from any of them on.
-/

namespace TwoLane

namespace BlockGraph

open Reach

variable {graph broken : BlockGraph} {starts roots : List Nat} {id root d e : Nat}

/-! ## Dominators in a region -/

/-- Whether a way to a block avoids another one. -/
def Avoids (graph : BlockGraph) (root d id : Nat) : Prop :=
  ∃ way, graph.Way root way id ∧ d ∉ way

theorem dominates_iff : graph.Dominates root d id ↔ d ≠ id ∧ ¬ graph.Avoids root d id := by
  simp [Dominates, Avoids]

theorem Avoids.onward (avoids : graph.Avoids root d id) {target : Nat} (leads : target ∈ graph.branches id)
    (differ : target ≠ d) : graph.Avoids root d target := by
  obtain ⟨way, there, absent⟩ := avoids
  exact ⟨way ++ [target], .onward there leads, by simp [absent, differ.symm]⟩

theorem avoids_root (differ : d ≠ root) : graph.Avoids root d root :=
  ⟨[root], .start, by simpa using differ⟩

/-- Where each of two blocks can be reached without the other one, every block can be reached without one of them. -/
theorem Way.avoids_one {way : List Nat} (leads : graph.Way root way id) (first : graph.Avoids root d e)
    (second : graph.Avoids root e d) : graph.Avoids root d id ∨ graph.Avoids root e id := by
  induction leads with
  | start =>
      refine .inl (avoids_root ?_)
      rintro rfl
      obtain ⟨way, leads, absent⟩ := first
      exact absent leads.root_mem
  | @onward way id target _ leads ih =>
      rcases ih with avoids | avoids
      · by_cases same : target = d
        · exact .inr (same ▸ second)
        · exact .inl (avoids.onward leads same)
      · by_cases same : target = e
        · exact .inl (same ▸ first)
        · exact .inr (avoids.onward leads same)

/-- Of two dominators of a block the one that a search comes to first dominates the other one. -/
theorem dominators_chain (inside : ∀ id < graph.size, ∀ target ∈ graph.branches id, target < graph.size)
    (here : root < graph.size) {before behind : List Nat} (split : graph.region root = before ++ e :: behind)
    (later : d ∉ before) (differ : e ≠ d) (dominates : d ∈ graph.regionDominators root id)
    (dominates' : e ∈ graph.regionDominators root id) (member : id ∈ graph.region root)
    (dRegion : d ∈ graph.region root) : e ∈ graph.regionDominators root d := by
  rw [mem_regionDominators inside here member, dominates_iff] at dominates dominates'
  rw [mem_regionDominators inside here dRegion, dominates_iff]
  obtain ⟨way, leads⟩ := (mem_region_iff inside here).mp member
  have first : graph.Avoids root d e := by
    obtain ⟨way, leads, subset⟩ := way_of_grown (grown_fromRoot split) e (List.mem_append_right _ List.mem_cons_self)
    exact ⟨way, leads, fun passed => by simpa [later, differ.symm] using subset passed⟩
  refine ⟨differ, fun second => ?_⟩
  rcases leads.avoids_one first second with avoids | avoids
  · exact dominates.2 avoids
  · exact dominates'.2 avoids

theorem Dominates.trans (dominates : graph.Dominates root d id) (dominates' : graph.Dominates root e d)
    (differ : e ≠ id) : graph.Dominates root e id := by
  refine ⟨differ, fun way leads => ?_⟩
  obtain ⟨front, there, _, subset⟩ := leads.arrival (dominates.2 way leads)
  have passed := dominates'.2 _ there
  exact subset (by simpa [dominates'.1] using passed)

/-! ## Where regions begin -/

theorem le_of_mem_regionRanks {first rank : Nat} (member : rank ∈ graph.regionRanks first roots) : first ≤ rank := by
  induction roots generalizing first with
  | nil => cases member
  | cons root rest ih =>
      rcases List.mem_cons.mp member with rfl | further
      · exact Nat.le_refl _
      · exact Nat.le_trans (Nat.le_add_right _ _) (ih further)

theorem last_regionRanks {before behind : List Nat} {first rank : Nat}
    (low : first + (before.flatMap graph.region).length ≤ rank)
    (high : rank < first + (before.flatMap graph.region).length + (graph.region root).length) :
    ((graph.regionRanks first (before ++ root :: behind)).filter (fun boundary => boundary ≤ rank)).getLast? =
      some (first + (before.flatMap graph.region).length) := by
  induction before generalizing first with
  | nil =>
      have beyond : (graph.regionRanks (first + (graph.region root).length) behind).filter
          (fun boundary => boundary ≤ rank) = [] := by
        refine List.filter_eq_nil_iff.mpr (fun boundary member => ?_)
        have := le_of_mem_regionRanks member
        simp only [List.flatMap_nil, List.length_nil] at high
        simp only [decide_eq_true_eq]
        omega
      have reached : first ≤ rank := by simpa using low
      rw [List.nil_append, regionRanks, List.filter_cons_of_pos (by simpa using reached), beyond]
      simp
  | cons other before ih =>
      rw [List.flatMap_cons, List.length_append, ← Nat.add_assoc] at low high
      have reached : first ≤ rank := by omega
      have last := ih low high
      rw [List.cons_append, regionRanks, List.filter_cons_of_pos (by simpa using reached), List.getLast?_cons, last,
        List.flatMap_cons, List.length_append, ← Nat.add_assoc]
      rfl

end BlockGraph

/-! ## Ranked graphs -/

/-- Whether the dominators of ranked blocks are ranked before them in their regions, and form chains. -/
structure RankedGraph.Chained (ranked : RankedGraph) : Prop where
  distinct : ∀ b ∈ ranked.order, (ranked.graph.block b).dominators.Nodup
  earlier : ∀ b ∈ ranked.order, ∀ d ∈ (ranked.graph.block b).dominators,
    d ∈ ranked.order ∧ ranked.order.idxOf d < ranked.order.idxOf b
  chain : ∀ b ∈ ranked.order, ∀ d ∈ (ranked.graph.block b).dominators, ∀ e ∈ (ranked.graph.block b).dominators,
    ranked.order.idxOf e < ranked.order.idxOf d → e ∈ (ranked.graph.block d).dominators
  onward : ∀ b ∈ ranked.order, ∀ d ∈ (ranked.graph.block b).dominators,
    (ranked.graph.block d).dominators ⊆ (ranked.graph.block b).dominators
  region : ∀ b ∈ ranked.order, ∀ d ∈ (ranked.graph.block b).dominators,
    DependencyGraph.regionStart ranked (ranked.order.idxOf b) ≤ ranked.order.idxOf d

namespace BlockGraph

open Reach

variable {graph broken : BlockGraph} {starts : List Nat} {id root d e : Nat}

theorem idxOf_lt_of_split {list before behind : List Nat} (distinct : list.Nodup)
    (split : list = before ++ e :: behind) (member : d ∈ before) : list.idxOf d < list.idxOf e := by
  subst split
  have absent : e ∉ before := fun there =>
    (List.disjoint_of_nodup_append distinct) there List.mem_cons_self
  rw [List.idxOf_append_of_mem member, List.idxOf_append_of_notMem absent]
  exact Nat.lt_of_lt_of_le (List.idxOf_lt_length_of_mem member) (Nat.le_add_right _ _)

theorem dominators_setRanks (graph : BlockGraph) (order : List Nat) (id : Nat) :
    ((graph.setRanks order).block id).dominators = (graph.block id).dominators := by
  rw [setRanks]
  generalize order.zipIdx = entries
  induction entries generalizing graph with
  | nil => rfl
  | cons first rest ih =>
      rw [List.foldl_cons, ih]
      refine view_modify Block.dominators ?_ graph first.1 id
      exact fun _ => rfl

theorem rankedBlocks_split {before behind : List Nat} (split : starts = before ++ root :: behind) :
    broken.rankedBlocks starts =
      before.flatMap broken.region ++ (broken.region root ++ behind.flatMap broken.region) := by
  rw [rankedBlocks, split, List.flatMap_append, List.flatMap_cons]

theorem Starts.idxOf_rankedBlocks (regions : Starts broken starts) {before behind : List Nat}
    (split : starts = before ++ root :: behind) (member : id ∈ broken.region root) :
    (broken.rankedBlocks starts).idxOf id = (before.flatMap broken.region).length + (broken.region root).idxOf id := by
  have distinct := regions.nodup_rankedBlocks
  rw [rankedBlocks_split split] at distinct ⊢
  have absent : id ∉ before.flatMap broken.region := fun there =>
    (List.disjoint_of_nodup_append distinct) there (List.mem_append_left _ member)
  rw [List.idxOf_append_of_notMem absent, List.idxOf_append_of_mem member]

theorem Starts.dominators_ranking (regions : Starts broken starts) (boundaries : List Nat) (there : root ∈ starts)
    (member : id ∈ broken.region root) :
    ((broken.ranking starts boundaries).graph.block id).dominators = broken.regionDominators root id := by
  have inside := (regions.of_mem_region there id member).1
  exact (dominators_setRanks _ _ _).trans ((dominators_dominated regions.apart_regions inside).1 root there member)

theorem Starts.nodup_dominators (regions : Starts broken starts) (there : root ∈ starts) (id : Nat) :
    (broken.regionDominators root id).Nodup :=
  (Dominance.increasing_dominance broken (regions.region_complete there).1 id).nodup

theorem Starts.mem_dominators (regions : Starts broken starts) (there : root ∈ starts) (member : id ∈ broken.region root) :
    d ∈ broken.regionDominators root id ↔ broken.Dominates root d id :=
  mem_regionDominators regions.stays (regions.inside root there) member

theorem Starts.dominator_earlier (regions : Starts broken starts) (there : root ∈ starts)
    (member : id ∈ broken.region root) (dominates : d ∈ broken.regionDominators root id) :
    d ∈ broken.region root ∧ (broken.region root).idxOf d < (broken.region root).idxOf id := by
  obtain ⟨front, back, split⟩ := List.append_of_mem member
  have early := dominator_before regions.stays (regions.inside root there) split dominates
  exact ⟨split ▸ List.mem_append_left _ early, idxOf_lt_of_split (nodup_fromRoot _ root) split early⟩

theorem Starts.dominator_dominates (regions : Starts broken starts) (there : root ∈ starts)
    (member : id ∈ broken.region root) (dominates : d ∈ broken.regionDominators root id)
    (dominates' : e ∈ broken.regionDominators root id)
    (less : (broken.region root).idxOf e < (broken.region root).idxOf d) : e ∈ broken.regionDominators root d := by
  obtain ⟨front, back, split⟩ := List.append_of_mem (regions.dominator_earlier there member dominates').1
  have dRegion := (regions.dominator_earlier there member dominates).1
  refine dominators_chain regions.stays (regions.inside root there) split ?_ ?_ dominates dominates' member dRegion
  · intro early
    have more : (broken.region root).idxOf d < (broken.region root).idxOf e :=
      idxOf_lt_of_split (nodup_fromRoot _ root) split early
    omega
  · rintro rfl
    omega

theorem regionStart_ranking {before behind : List Nat} (split : starts = before ++ root :: behind) {offset : Nat}
    (inside : offset < (broken.region root).length) :
    DependencyGraph.regionStart (broken.ranking starts (broken.regionRanks 0 starts))
      ((before.flatMap broken.region).length + offset) = (before.flatMap broken.region).length := by
  have last : ((broken.regionRanks 0 starts).filter (fun boundary => decide (boundary ≤
      (before.flatMap broken.region).length + offset))).getLast? = some (0 + (before.flatMap broken.region).length) :=
    split ▸ last_regionRanks (by omega) (by omega)
  rw [Nat.zero_add] at last
  exact congrArg (fun found => found.getD 0) last

/-- In the order of the ranks the dominators of a block stand before it, in its region and as a chain. -/
theorem chained_ranking (regions : Starts broken starts) :
    (broken.ranking starts (broken.regionRanks 0 starts)).Chained := by
  have place : ∀ {b d}, b ∈ broken.rankedBlocks starts →
      d ∈ ((broken.ranking starts (broken.regionRanks 0 starts)).graph.block b).dominators →
        ∃ before root behind, starts = before ++ root :: behind ∧ root ∈ starts ∧ b ∈ broken.region root ∧
          d ∈ broken.regionDominators root b ∧ d ∈ broken.region root := by
    intro b d member dominates
    obtain ⟨root, there, here⟩ := List.mem_flatMap.mp member
    obtain ⟨before, behind, split⟩ := List.append_of_mem there
    rw [regions.dominators_ranking _ there here] at dominates
    exact ⟨before, root, behind, split, there, here, dominates, (regions.dominator_earlier there here dominates).1⟩
  exact {
    distinct := by
      intro b member
      obtain ⟨root, there, here⟩ := List.mem_flatMap.mp member
      rw [regions.dominators_ranking _ there here]
      exact regions.nodup_dominators there b
    earlier := by
      intro b member d dominates
      obtain ⟨before, root, behind, split, there, here, dominates, inRegion⟩ := place member dominates
      refine ⟨List.mem_flatMap.mpr ⟨root, there, inRegion⟩, ?_⟩
      change (broken.rankedBlocks starts).idxOf d < (broken.rankedBlocks starts).idxOf b
      rw [regions.idxOf_rankedBlocks split inRegion, regions.idxOf_rankedBlocks split here]
      exact Nat.add_lt_add_left (regions.dominator_earlier there here dominates).2 _
    chain := by
      intro b member d dominates e dominates' less
      obtain ⟨before, root, behind, split, there, here, dominates, dRegion⟩ := place member dominates
      rw [regions.dominators_ranking _ there here] at dominates'
      have eRegion := (regions.dominator_earlier there here dominates').1
      change (broken.rankedBlocks starts).idxOf e < (broken.rankedBlocks starts).idxOf d at less
      rw [regions.idxOf_rankedBlocks split eRegion, regions.idxOf_rankedBlocks split dRegion] at less
      rw [regions.dominators_ranking _ there dRegion]
      exact regions.dominator_dominates there here dominates dominates' (Nat.lt_of_add_lt_add_left less)
    onward := by
      intro b member d dominates e dominates'
      obtain ⟨before, root, behind, split, there, here, dominates, inRegion⟩ := place member dominates
      rw [regions.dominators_ranking _ there inRegion] at dominates'
      rw [regions.dominators_ranking _ there here]
      have first := (regions.dominator_earlier there here dominates).2
      have second := (regions.dominator_earlier there inRegion dominates').2
      rw [regions.mem_dominators there here] at dominates ⊢
      rw [regions.mem_dominators there inRegion] at dominates'
      refine dominates.trans dominates' ?_
      rintro rfl
      omega
    region := by
      intro b member d dominates
      obtain ⟨before, root, behind, split, there, here, _, inRegion⟩ := place member dominates
      change DependencyGraph.regionStart _ ((broken.rankedBlocks starts).idxOf b) ≤
        (broken.rankedBlocks starts).idxOf d
      rw [regions.idxOf_rankedBlocks split inRegion, regions.idxOf_rankedBlocks split here,
        regionStart_ranking split (List.idxOf_lt_length_of_mem here)]
      exact Nat.le_add_right _ _ }

theorem rank_chained (fresh : graph.Fresh) (inhabited : start < graph.size) {lines : Classification}
    {ranked : RankedGraph} (ranks : graph.rank lines = .ok ranked) : ranked.Chained := by
  obtain ⟨_, regions, _⟩ := breakLoops_spec fresh inhabited lines
  rw [rank_eq_ok fresh inhabited lines] at ranks
  cases ranks
  exact chained_ranking regions

end BlockGraph

end TwoLane
