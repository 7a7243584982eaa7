import TwoLane.Block.Ranking
import TwoLane.Proofs.Block.Graph
import TwoLane.Proofs.Block.Reach

/-! # Copies of blocks

A block is copied together with everything reachable from it. A copy knows the block that it was copied from, holds the
same lines, and leads to the copies of the blocks to which that one leads. What is copied is added behind all
other blocks, so nothing leads out of it.
-/

namespace TwoLane

/-- What a block has in common with its copies. -/
def Block.body (block : Block) : String × List Nat × Bindings :=
  (block.name, block.lines, block.bindings)

namespace BlockGraph

open Reach

/-- The block that a block was copied from; a block that is no copy is its own origin. -/
def origin (graph : BlockGraph) (id : Nat) : Nat :=
  (graph.block id).copiedFrom.getD id

/-- A graph without copies, loops and ranks, whose branches lead to blocks of the graph. -/
structure Fresh (graph : BlockGraph) : Prop where
  inside : ∀ id < graph.size, ∀ target ∈ graph.branches id, target < graph.size
  own : ∀ id, (graph.block id).copiedFrom = none
  loopless : ∀ id, (graph.block id).loopBack = []
  unranked : ∀ id, (graph.block id).rank = none

/-- A graph to which copies of its blocks are added. -/
structure Copied (graph later : BlockGraph) : Prop where
  length : graph.size ≤ later.size
  kept : ∀ id < graph.size, later.block id = graph.block id
  origin : ∀ id < later.size, later.origin id < graph.size
  body : ∀ id < later.size, (later.block id).body = (graph.block (later.origin id)).body
  inside : ∀ id < later.size, ∀ target ∈ later.branches id, target < later.size
  branches : ∀ id < later.size, (later.branches id).map later.origin = graph.branches (later.origin id)
  loopless : ∀ id, (later.block id).loopBack = []
  unranked : ∀ id, (later.block id).rank = none

/-- A graph to which blocks are added that do not lead back to it. -/
structure Extends (graph later : BlockGraph) : Prop where
  length : graph.size ≤ later.size
  kept : ∀ id < graph.size, later.block id = graph.block id
  onward : ∀ id, graph.size ≤ id → id < later.size → ∀ target ∈ later.branches id, graph.size ≤ target

variable {graph acc later last : BlockGraph} {sources : List Nat} {id i root : Nat}

theorem Fresh.origin (fresh : graph.Fresh) (id : Nat) : graph.origin id = id := by
  rw [BlockGraph.origin, fresh.own, Option.getD_none]

theorem Copied.own (copied : Copied graph later) (fresh : graph.Fresh) (inside : id < graph.size) :
    later.origin id = id := by
  rw [BlockGraph.origin, copied.kept id inside]
  exact fresh.origin id

theorem Fresh.copied (fresh : graph.Fresh) : Copied graph graph where
  length := Nat.le_refl _
  kept := fun _ _ => rfl
  origin := fun id inside => (fresh.origin id).symm ▸ inside
  body := fun id _ => by rw [fresh.origin]
  inside := fresh.inside
  branches := by
    intro id _
    rw [fresh.origin, List.map_congr_left (fun target _ => fresh.origin target), List.map_id']
  loopless := fresh.loopless
  unranked := fresh.unranked

theorem Extends.refl (graph : BlockGraph) : Extends graph graph :=
  ⟨Nat.le_refl _, fun _ _ => rfl, fun _ low high => absurd high (Nat.not_lt.mpr low)⟩

theorem Extends.trans (first : Extends graph later) (second : Extends later last) : Extends graph last where
  length := Nat.le_trans first.length second.length
  kept := fun id inside =>
    (second.kept id (Nat.lt_of_lt_of_le inside first.length)).trans (first.kept id inside)
  onward := by
    intro id low high target leads
    by_cases early : id < later.size
    · rw [BlockGraph.branches, second.kept id early] at leads
      exact first.onward id low early target leads
    · exact Nat.le_trans first.length (second.onward id (Nat.le_of_not_lt early) high target leads)

theorem Extends.origin (extends' : Extends graph later) (inside : id < graph.size) :
    later.origin id = graph.origin id := by
  rw [BlockGraph.origin, extends'.kept id inside]
  rfl

/-! ## Copying blocks -/

def withCopies (graph : BlockGraph) (sources : List Nat) : BlockGraph :=
  ⟨graph.blocks ++ sources.map (graph.copyBlock (fun id => graph.size + sources.idxOf id))⟩

theorem size_withCopies (graph : BlockGraph) (sources : List Nat) :
    (graph.withCopies sources).size = graph.size + sources.length := by
  rw [size, withCopies, List.length_append, List.length_map]
  rfl

theorem block_withCopies_of_lt (inside : id < graph.size) : (graph.withCopies sources).block id = graph.block id := by
  rw [block, withCopies, List.getElem?_append_left inside]
  rfl

theorem block_withCopies (found : sources[i]? = some id) : (graph.withCopies sources).block (graph.size + i) =
    graph.copyBlock (fun id => graph.size + sources.idxOf id) id := by
  refine block_of_getElem? ?_
  change (graph.blocks ++ sources.map _)[graph.blocks.length + i]? = _
  rw [List.getElem?_append_right (Nat.le_add_right _ _), Nat.add_sub_cancel_left, List.getElem?_map, found]
  rfl

theorem origin_withCopies (found : sources[i]? = some id) : (graph.withCopies sources).origin (graph.size + i) = id := by
  rw [origin, block_withCopies found]
  rfl

theorem lt_or_copy (inside : id < (graph.withCopies sources).size) :
    id < graph.size ∨ ∃ i source, sources[i]? = some source ∧ id = graph.size + i := by
  rw [size_withCopies] at inside
  by_cases early : id < graph.size
  · exact .inl early
  · have position : id - graph.size < sources.length := by omega
    exact .inr ⟨id - graph.size, _, List.getElem?_eq_getElem position, by omega⟩

/-- What is reachable from a block is a number of blocks, the block itself first, which lead nowhere else. -/
theorem copyReachable_eq (fresh : graph.Fresh) (copied : Copied graph acc) (inside : root < graph.size) :
    ∃ sources, acc.copyReachable root = acc.withCopies sources ∧ sources[0]? = some root ∧
      ∀ id ∈ sources, id < graph.size ∧ acc.branches id ⊆ sources := by
  have stays : ∀ id < graph.size, ∀ target ∈ acc.branches id, target < graph.size := by
    intro id inside target leads
    rw [branches, copied.kept id inside] at leads
    exact fresh.inside id inside target leads
  obtain ⟨rest, found, _, closed⟩ := depthFirst_complete stays inside (Nat.lt_succ_of_le copied.length)
  refine ⟨root :: rest, ?_, rfl, closed⟩
  rw [copyReachable, found]
  rfl

theorem extends_withCopies (acc : BlockGraph) (sources : List Nat) : Extends acc (acc.withCopies sources) where
  length := by
    rw [size_withCopies]
    exact Nat.le_add_right _ _
  kept := fun _ inside => block_withCopies_of_lt inside
  onward := by
    intro id low high target leads
    rcases lt_or_copy high with early | ⟨i, source, found, rfl⟩
    · exact absurd low (Nat.not_le.mpr early)
    · rw [branches, block_withCopies found] at leads
      obtain ⟨_, _, rfl⟩ := List.mem_map.mp leads
      exact Nat.le_add_right _ _

theorem forall_block_withCopies (holds : Block → Prop) (earlier : ∀ id, holds (acc.block id))
    (copies : ∀ id, holds (acc.copyBlock (fun id => acc.size + sources.idxOf id) id)) (id : Nat) :
    holds ((acc.withCopies sources).block id) := by
  by_cases inside : id < (acc.withCopies sources).size
  · rcases lt_or_copy inside with early | ⟨i, source, found, rfl⟩
    · rw [block_withCopies_of_lt early]
      exact earlier id
    · rw [block_withCopies found]
      exact copies source
  · have beyond := earlier acc.size
    rw [block_of_le (Nat.le_refl _)] at beyond
    rwa [block_of_le (Nat.le_of_not_lt inside)]

/-- Copies of blocks that lead nowhere else are copies of the graph again. -/
theorem copied_withCopies (copied : Copied graph acc)
    (closed : ∀ id ∈ sources, id < graph.size ∧ acc.branches id ⊆ sources) : Copied graph (acc.withCopies sources) := by
  have extends' := extends_withCopies acc sources
  have positions : ∀ {source}, source ∈ sources → sources[sources.idxOf source]? = some source := by
    intro source member
    simp [List.getElem?_idxOf, member]
  exact {
    length := Nat.le_trans copied.length extends'.length
    kept := fun id inside =>
      (extends'.kept id (Nat.lt_of_lt_of_le inside copied.length)).trans (copied.kept id inside)
    origin := by
      intro id inside
      rcases lt_or_copy inside with early | ⟨i, source, found, rfl⟩
      · rw [extends'.origin early]
        exact copied.origin id early
      · rw [origin_withCopies found]
        exact (closed source (List.mem_of_getElem? found)).1
    body := by
      intro id inside
      rcases lt_or_copy inside with early | ⟨i, source, found, rfl⟩
      · rw [extends'.kept id early, extends'.origin early]
        exact copied.body id early
      · rw [origin_withCopies found, block_withCopies found,
          ← copied.kept source (closed source (List.mem_of_getElem? found)).1]
        rfl
    inside := by
      intro id inside target leads
      rcases lt_or_copy inside with early | ⟨i, source, found, rfl⟩
      · rw [branches, extends'.kept id early] at leads
        exact Nat.lt_of_lt_of_le (copied.inside id early target leads) extends'.length
      · rw [branches, block_withCopies found] at leads
        obtain ⟨original, follows, rfl⟩ := List.mem_map.mp leads
        rw [size_withCopies]
        exact Nat.add_lt_add_left
          (List.idxOf_lt_length_of_mem ((closed source (List.mem_of_getElem? found)).2 follows)) _
    branches := by
      intro id inside
      rcases lt_or_copy inside with early | ⟨i, source, found, rfl⟩
      · rw [branches, extends'.kept id early, extends'.origin early, ← copied.branches id early]
        exact List.map_congr_left (fun target leads => extends'.origin (copied.inside id early target leads))
      · have member := List.mem_of_getElem? found
        rw [branches, block_withCopies found, origin_withCopies found]
        change ((acc.branches source).map (fun target => acc.size + sources.idxOf target)).map _ = _
        have same : ∀ target ∈ acc.branches source,
            ((acc.withCopies sources).origin ∘ fun target => acc.size + sources.idxOf target) target = target :=
          fun target leads => origin_withCopies (positions ((closed source member).2 leads))
        rw [List.map_map, List.map_congr_left same, List.map_id', branches, copied.kept source (closed source member).1]
        rfl
    loopless := forall_block_withCopies (fun block => block.loopBack = []) copied.loopless (fun _ => rfl)
    unranked := forall_block_withCopies (fun block => block.rank = none) copied.unranked (fun _ => rfl) }

/-! ## Copying for several blocks -/

/-- Where the copies of some blocks are in a graph: they begin parts of it that nothing leaves or enters. -/
structure Parts (base later : BlockGraph) (copies : List (Nat × Nat)) : Prop where
  order : (copies.map Prod.snd).Pairwise (· < ·)
  inside : ∀ copy ∈ copies, base.size ≤ copy.2 ∧ copy.2 < later.size
  origin : ∀ copy ∈ copies, later.origin copy.2 = copy.1
  apart : ∀ copy ∈ copies, ∀ id < later.size, ∀ target ∈ later.branches id, copy.2 ≤ target ↔ copy.2 ≤ id

theorem Extends.apart (extends' : Extends acc later)
    (inside : ∀ id < acc.size, ∀ target ∈ acc.branches id, target < acc.size) (here : id < later.size) : ∀ target ∈ later.branches id, acc.size ≤ target ↔ acc.size ≤ id := by
  intro target leads
  by_cases early : id < acc.size
  · rw [branches, extends'.kept id early] at leads
    have := inside id early target leads
    omega
  · have := extends'.onward id (Nat.le_of_not_lt early) here target leads
    omega

theorem copyAll_copied (fresh : graph.Fresh) (copied : Copied graph acc) {roots : List Nat}
    (inside : ∀ root ∈ roots, root < graph.size) :
    Copied graph (acc.copyAll roots).1 ∧ Extends acc (acc.copyAll roots).1 ∧
      (acc.copyAll roots).2.map Prod.fst = roots ∧ Parts acc (acc.copyAll roots).1 (acc.copyAll roots).2 := by
  induction roots generalizing acc with
  | nil =>
      refine ⟨copied, .refl acc, rfl, .nil, ?_, ?_, ?_⟩ <;> exact fun _ member => absurd member List.not_mem_nil
  | cons root rest ih =>
      obtain ⟨here, further⟩ := List.forall_mem_cons.mp inside
      obtain ⟨sources, whole, begins, closed⟩ := copyReachable_eq fresh copied here
      have longer : acc.size < (acc.withCopies sources).size := by
        rw [size_withCopies]
        exact Nat.lt_add_of_pos_right (List.length_pos_of_mem (List.mem_of_getElem? begins))
      have root' : (acc.withCopies sources).origin acc.size = root := origin_withCopies begins
      have extends' := extends_withCopies acc sources
      obtain ⟨all, onward, origins, parts⟩ := ih (copied_withCopies copied closed) further
      rw [copyAll, whole]
      refine ⟨all, extends'.trans onward, congrArg (root :: ·) origins, ?_, ?_, ?_, ?_⟩
      · refine List.pairwise_cons.mpr ⟨fun position member => ?_, parts.order⟩
        obtain ⟨copy, there, rfl⟩ := List.mem_map.mp member
        exact Nat.lt_of_lt_of_le longer (parts.inside copy there).1
      · refine List.forall_mem_cons.mpr ⟨⟨Nat.le_refl _, Nat.lt_of_lt_of_le longer onward.length⟩, fun copy member => ?_⟩
        obtain ⟨low, high⟩ := parts.inside copy member
        exact ⟨Nat.le_trans extends'.length low, high⟩
      · exact List.forall_mem_cons.mpr ⟨(onward.origin longer).trans root', parts.origin⟩
      · refine List.forall_mem_cons.mpr ⟨fun id there => ?_, parts.apart⟩
        exact (extends'.trans onward).apart copied.inside there

end BlockGraph

end TwoLane
