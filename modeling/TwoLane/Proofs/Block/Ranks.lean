import TwoLane.Proofs.Block.Dominance
import TwoLane.Proofs.Block.Loops
import TwoLane.Proofs.Result

/-! # Ranks

Dominators and ranks are marks on the blocks of a graph and change nothing else. A search finds each block of a region
behind all that dominate it, so no block has to wait: the whole region is ranked in the order of the search, and ranking
succeeds.
-/

namespace TwoLane

/-- A block without its marks. -/
def Block.unmarked (block : Block) : Block :=
  { block with rank := none, dominators := [] }

namespace BlockGraph

open Reach

variable {graph later last : BlockGraph} {lines : Classification} {id i root : Nat} {ids roots starts : List Nat}

/-! ## Marks -/

/-- Whether two graphs differ in marks only. -/
structure Marked (graph later : BlockGraph) : Prop where
  size : later.size = graph.size
  blocks : ∀ id, (later.block id).unmarked = (graph.block id).unmarked

theorem Marked.refl (graph : BlockGraph) : Marked graph graph :=
  ⟨rfl, fun _ => rfl⟩

theorem Marked.trans (first : Marked graph later) (second : Marked later last) : Marked graph last :=
  ⟨second.size.trans first.size, fun id => (second.blocks id).trans (first.blocks id)⟩

theorem Marked.view {β : Type} (marked : Marked graph later) (view : Block → β)
    (blind : ∀ block : Block, view block.unmarked = view block) (id : Nat) :
    view (later.block id) = view (graph.block id) := by
  rw [← blind, marked.blocks, blind]

theorem Marked.branches (marked : Marked graph later) : later.branches = graph.branches :=
  funext (marked.view Block.branches (fun _ => rfl))

theorem Marked.flow (marked : Marked graph later) (id : Nat) : (later.block id).flow = (graph.block id).flow :=
  marked.view Block.flow (fun _ => rfl) id

theorem Marked.body (marked : Marked graph later) (id : Nat) : (later.block id).body = (graph.block id).body :=
  marked.view Block.body (fun _ => rfl) id

theorem Marked.origin (marked : Marked graph later) : later.origin = graph.origin := by
  funext id
  rw [BlockGraph.origin, marked.view Block.copiedFrom (fun _ => rfl) id]
  rfl

theorem Marked.region (marked : Marked graph later) : later.region = graph.region := by
  funext root
  rw [BlockGraph.region, BlockGraph.region, marked.branches, marked.size]

theorem marked_modify {change : Block → Block} (same : ∀ block, (change block).unmarked = block.unmarked) :
    Marked graph (graph.modify id change) :=
  ⟨size_modify graph id change, view_modify Block.unmarked same graph id⟩

/-! ## Dominators -/

def regionDominators (graph : BlockGraph) (root id : Nat) : List Nat :=
  (graph.dominance root (graph.region root)).of id

theorem Marked.regionDominators (marked : Marked graph later) :
    later.regionDominators = graph.regionDominators := by
  have predecessors : later.predecessorsIn = graph.predecessorsIn := by
    funext members id
    rw [predecessorsIn, predecessorsIn, marked.branches]
  funext root id
  rw [BlockGraph.regionDominators, BlockGraph.regionDominators, dominance, dominance, marked.region, predecessors]

/-- A search comes to a block on a way through what it has found. -/
theorem way_of_grown {nodes : List Nat} (grown : Grown graph.branches root nodes) :
    ∀ id ∈ nodes, ∃ way, graph.Way root way id ∧ way ⊆ nodes := by
  induction grown with
  | root =>
      intro id only
      cases List.mem_singleton.mp only
      exact ⟨[root], .start, List.Subset.refl _⟩
  | @next nodes node new grown member follows ih =>
      intro id member'
      rcases List.mem_append.mp member' with old | last
      · obtain ⟨way, leads, subset⟩ := ih id old
        exact ⟨way, leads, List.subset_append_of_subset_left _ subset⟩
      · cases List.mem_singleton.mp last
        obtain ⟨way, leads, subset⟩ := ih node member
        exact ⟨way ++ [new], .onward leads follows, List.append_subset.mpr
          ⟨List.subset_append_of_subset_left _ subset, List.subset_append_right _ _⟩⟩

theorem mem_region_iff (inside : ∀ id < graph.size, ∀ target ∈ graph.branches id, target < graph.size)
    (here : root < graph.size) : id ∈ graph.region root ↔ graph.LeadsTo root id := by
  obtain ⟨begins, closed⟩ := fromRoot_complete (branches_lt inside) here
  constructor
  · intro member
    obtain ⟨before, behind, split⟩ := List.append_of_mem member
    obtain ⟨way, leads, _⟩ := way_of_grown (grown_fromRoot split) id (List.mem_append_right _ List.mem_cons_self)
    exact ⟨way, leads⟩
  · rintro ⟨way, leads⟩
    exact leads.mem_of_closed begins closed

theorem mem_regionDominators (inside : ∀ id < graph.size, ∀ target ∈ graph.branches id, target < graph.size)
    (here : root < graph.size) (member : id ∈ graph.region root) {d : Nat} :
    d ∈ graph.regionDominators root id ↔ graph.Dominates root d id := by
  obtain ⟨begins, closed⟩ := fromRoot_complete (branches_lt inside) here
  obtain ⟨way, leads⟩ := (mem_region_iff inside here).mp member
  exact mem_dominance begins closed leads

theorem dominator_before {before behind : List Nat} {other : Nat}
    (inside : ∀ id < graph.size, ∀ target ∈ graph.branches id, target < graph.size) (here : root < graph.size)
    (split : graph.region root = before ++ id :: behind) (dominates : other ∈ graph.regionDominators root id) :
    other ∈ before := by
  have member : id ∈ graph.region root := split ▸ List.mem_append_right _ List.mem_cons_self
  obtain ⟨differ, passed⟩ := (mem_regionDominators inside here member).mp dominates
  obtain ⟨way, leads, subset⟩ := way_of_grown (grown_fromRoot split) id (List.mem_append_right _ List.mem_cons_self)
  simpa [differ] using subset (passed way leads)

theorem marked_setDominators (graph : BlockGraph) (root : Nat) (members : List Nat) :
    Marked graph (graph.setDominators root members) := by
  rw [setDominators]
  generalize graph.dominance root members = known
  induction members generalizing graph with
  | nil => exact .refl graph
  | cons first rest ih =>
      have marked : Marked graph (graph.modify first (fun block => { block with dominators := known.of first })) :=
        marked_modify (fun _ => rfl)
      exact marked.trans (ih _)

theorem dominators_foldl (found : Nat → List Nat) (inside : id < graph.size) :
    ((ids.foldl (fun acc id => acc.modify id (fun block => { block with dominators := found id })) graph).block
      id).dominators = if id ∈ ids then found id else (graph.block id).dominators := by
  induction ids generalizing graph with
  | nil => simp
  | cons first rest ih =>
      have marked : Marked graph (graph.modify first (fun block => { block with dominators := found first })) :=
        marked_modify (fun _ => rfl)
      rw [List.foldl_cons, ih (marked.size.symm ▸ inside)]
      by_cases later : id ∈ rest
      · rw [if_pos later, if_pos (List.mem_cons_of_mem _ later)]
      · rw [if_neg later]
        by_cases here : first = id
        · subst here
          rw [block_modify_self inside, if_pos List.mem_cons_self]
        · rw [block_modify_of_ne here, if_neg (by simp [later, Ne.symm here])]

/-- A graph with the dominators of several regions noted. -/
def dominated (graph : BlockGraph) (roots : List Nat) : BlockGraph :=
  roots.foldl (fun acc root => acc.setDominators root (acc.region root)) graph

theorem marked_dominated (graph : BlockGraph) (roots : List Nat) : Marked graph (graph.dominated roots) := by
  induction roots generalizing graph with
  | nil => exact .refl graph
  | cons root rest ih => exact (marked_setDominators _ _ _).trans (ih _)

theorem rank_dominated (graph : BlockGraph) (roots : List Nat) (id : Nat) :
    ((graph.dominated roots).block id).rank = (graph.block id).rank := by
  have member : ∀ (ids : List Nat) (found : Nat → List Nat) (graph : BlockGraph), ((ids.foldl (fun acc id =>
      acc.modify id (fun block => { block with dominators := found id })) graph).block id).rank =
        (graph.block id).rank := by
    intro ids found
    induction ids with
    | nil => exact fun _ => rfl
    | cons first rest ih =>
        intro graph
        rw [List.foldl_cons, ih]
        refine view_modify Block.rank ?_ graph first id
        exact fun _ => rfl
  induction roots generalizing graph with
  | nil => rfl
  | cons root rest ih => exact (ih _).trans (member _ _ graph)

theorem dominators_dominated (apart : roots.Pairwise (fun a b => List.Disjoint (graph.region a) (graph.region b)))
    (inside : id < graph.size) :
    (∀ root ∈ roots, id ∈ graph.region root →
      ((graph.dominated roots).block id).dominators = graph.regionDominators root id) ∧
    ((∀ root ∈ roots, id ∉ graph.region root) →
      ((graph.dominated roots).block id).dominators = (graph.block id).dominators) := by
  induction roots generalizing graph with
  | nil => exact ⟨fun _ member => absurd member List.not_mem_nil, fun _ => rfl⟩
  | cons first rest ih =>
      obtain ⟨separate, further⟩ := List.pairwise_cons.mp apart
      have marked := marked_setDominators graph first (graph.region first)
      have noted : ((graph.setDominators first (graph.region first)).block id).dominators =
          if id ∈ graph.region first then graph.regionDominators first id else (graph.block id).dominators :=
        dominators_foldl _ inside
      obtain ⟨own, other⟩ := ih (by rwa [marked.region]) (marked.size.symm ▸ inside)
      rw [marked.region] at own other
      rw [marked.regionDominators] at own
      refine ⟨fun root member there => ?_, fun absent => ?_⟩
      · rcases List.mem_cons.mp member with rfl | later
        · rw [if_pos there] at noted
          refine (other (fun root' member' there' => ?_)).trans noted
          exact separate root' member' there there'
        · exact own root later there
      · obtain ⟨here, later⟩ := List.forall_mem_cons.mp absent
        rw [if_neg here] at noted
        exact (other later).trans noted

/-! ## Ranking -/

theorem rankQueue_eq {ranked queue : List Nat} {bound : Nat} (stalled : Nat) (ready : ∀ before id behind,
    queue = before ++ id :: behind → (graph.block id).dominators ⊆ ranked ++ before) (enough : queue.length ≤ bound) :
    graph.rankQueue bound stalled ranked queue = .ok (ranked ++ queue) := by
  induction queue generalizing ranked bound stalled with
  | nil => rw [rankQueue, List.append_nil]
  | cons id rest ih =>
      cases bound with
      | zero => simp at enough
      | succ bound =>
          have all : (graph.block id).dominators.all (fun d => ranked.contains d) = true := by
            refine List.all_eq_true.mpr (fun d member => List.contains_iff_mem.mpr ?_)
            simpa using ready [] id rest rfl member
          rw [rankQueue, if_pos all, ih 0 (fun before other behind split => ?_) (by simpa using enough),
            List.append_assoc]
          · rfl
          · rw [List.append_assoc]
            exact ready (id :: before) other behind (congrArg (id :: ·) split)

theorem length_le_queueBound (queue : List Nat) : queue.length ≤ queueBound queue :=
  Nat.le_mul_of_pos_right _ (Nat.succ_pos _)

def regionRanks (graph : BlockGraph) : Nat → List Nat → List Nat
  | _, [] => []
  | first, root :: rest => first :: regionRanks graph (first + (graph.region root).length) rest

theorem regionRanks_congr (same : later.region = graph.region) : later.regionRanks = graph.regionRanks := by
  funext first roots
  induction roots generalizing first with
  | nil => rfl
  | cons root rest ih => rw [regionRanks, regionRanks, same, ih]

theorem rankRegions_eq {ranked : List Nat} (ready : ∀ root ∈ roots, ∀ before id behind,
    graph.region root = before ++ id :: behind → (graph.block id).dominators ⊆ ranked ++ before) :
    graph.rankRegions ranked roots =
      .ok (ranked ++ roots.flatMap graph.region, graph.regionRanks ranked.length roots) := by
  induction roots generalizing ranked with
  | nil => rw [rankRegions, List.flatMap_nil, List.append_nil, regionRanks]
  | cons root rest ih =>
      obtain ⟨here, later⟩ := List.forall_mem_cons.mp ready
      have later' : ∀ root' ∈ rest, ∀ before id behind, graph.region root' = before ++ id :: behind →
          (graph.block id).dominators ⊆ ranked ++ graph.region root ++ before := by
        intro root' member before id behind split
        refine List.Subset.trans (later root' member before id behind split) ?_
        rw [List.append_assoc]
        exact List.append_subset.mpr ⟨List.subset_append_left _ _,
          List.Subset.trans (List.subset_append_right _ _) (List.subset_append_right _ _)⟩
      have queue : graph.rankQueue (queueBound (graph.region root)) 0 ranked (graph.region root) =
          .ok (ranked ++ graph.region root) :=
        rankQueue_eq 0 here (length_le_queueBound _)
      rw [rankRegions, queue]
      change (graph.rankRegions (ranked ++ graph.region root) rest >>= fun further =>
        Except.ok (further.1, ranked.length :: further.2)) = _
      rw [ih later', List.flatMap_cons, ← List.append_assoc, regionRanks, List.length_append]
      rfl

theorem marked_foldl_ranks (graph : BlockGraph) (entries : List (Nat × Nat)) : Marked graph (entries.foldl
    (fun acc entry => acc.modify entry.1 (fun block => { block with rank := some entry.2 })) graph) := by
  induction entries generalizing graph with
  | nil => exact .refl graph
  | cons first rest ih =>
      have marked : Marked graph (graph.modify first.1 (fun block => { block with rank := some first.2 })) :=
        marked_modify (fun _ => rfl)
      exact marked.trans (ih _)

theorem marked_setRanks (graph : BlockGraph) (order : List Nat) : Marked graph (graph.setRanks order) :=
  marked_foldl_ranks graph order.zipIdx

theorem rank_foldl_ranks (distinct : ids.Nodup) (inside : id < graph.size) (first : Nat) :
    (((ids.zipIdx first).foldl
      (fun acc entry => acc.modify entry.1 (fun block => { block with rank := some entry.2 })) graph).block id).rank =
      if id ∈ ids then some (first + ids.idxOf id) else (graph.block id).rank := by
  induction ids generalizing graph first with
  | nil => simp
  | cons head rest ih =>
      obtain ⟨absent, further⟩ := List.nodup_cons.mp distinct
      have marked : Marked graph (graph.modify head (fun block => { block with rank := some first })) :=
        marked_modify (fun _ => rfl)
      rw [List.zipIdx_cons, List.foldl_cons, ih further (marked.size.symm ▸ inside)]
      by_cases here : head = id
      · subst here
        rw [if_neg absent, if_pos List.mem_cons_self, block_modify_self inside, List.idxOf_cons_self]
        rfl
      · have apart : (head == id) = false := beq_false_of_ne here
        rw [block_modify_of_ne here]
        by_cases later : id ∈ rest
        · rw [if_pos later, if_pos (List.mem_cons_of_mem _ later), List.idxOf_cons, apart, cond_false,
            Nat.add_right_comm, Nat.add_assoc]
        · rw [if_neg later, if_neg (by simp [later, Ne.symm here])]

theorem rank_setRanks (distinct : ids.Nodup) (inside : id < graph.size) : ((graph.setRanks ids).block id).rank =
    if id ∈ ids then some (ids.idxOf id) else (graph.block id).rank := by
  have ranks := rank_foldl_ranks distinct inside 0
  rwa [Nat.zero_add] at ranks

end BlockGraph

end TwoLane
