import TwoLane.Proofs.Block.Copies

/-! # Broken loops

A graph whose loops are broken has the flow of the original one: what a block leads to, directly or around a loop, are
copies of what its origin leads to, in the same order. Its parts begin at the entry and at the copies for
the cut branches, and only the links around loops lead from one part to another.
-/

namespace TwoLane.BlockGraph

variable {graph later : BlockGraph} {lines : Classification} {id : Nat}

/-! ## Cut branches -/

theorem block_withoutConditionals (graph : BlockGraph) (lines : Classification) (id : Nat) :
    (graph.withoutConditionals lines).block id =
      { graph.block id with
        branches := if endsInCondition lines (graph.block id) then [] else (graph.block id).branches } := by
  by_cases inside : id < graph.size
  · refine block_of_getElem? ?_
    rw [withoutConditionals, List.getElem?_map, getElem?_block inside, Option.map_some]
    split <;> rfl
  · have outside : graph.size ≤ id := Nat.le_of_not_lt inside
    have outside' : (graph.withoutConditionals lines).size ≤ id := by
      rwa [size, withoutConditionals, List.length_map]
    rw [block_of_le outside, block_of_le outside']
    rfl

theorem size_withoutConditionals (graph : BlockGraph) (lines : Classification) :
    (graph.withoutConditionals lines).size = graph.size := by
  rw [size, withoutConditionals, List.length_map]
  rfl

theorem Fresh.withoutConditionals (fresh : graph.Fresh) (lines : Classification) :
    (graph.withoutConditionals lines).Fresh where
  inside := by
    intro id inside target leads
    rw [size_withoutConditionals] at inside ⊢
    rw [branches, block_withoutConditionals] at leads
    dsimp only at leads
    split at leads
    · cases leads
    · exact fresh.inside id inside target leads
  own := fun id => by rw [block_withoutConditionals]; exact fresh.own id
  loopless := fun id => by rw [block_withoutConditionals]; exact fresh.loopless id
  unranked := fun id => by rw [block_withoutConditionals]; exact fresh.unranked id

theorem lookup_conditionals (inside : id < graph.size) : (graph.conditionals lines).lookup id =
    if endsInCondition lines (graph.block id) then some (graph.branches id) else none := by
  have member : id ∈ (List.range graph.size).filter (fun id => endsInCondition lines (graph.block id)) ↔
      endsInCondition lines (graph.block id) = true := by
    rw [List.mem_filter, List.mem_range, and_iff_right inside]
  split
  · next ends => exact List.lookup_graph _ (member.mpr ends)
  · next flows =>
      refine List.lookup_eq_none_iff.mpr (fun entry there => ?_)
      obtain ⟨other, own, rfl⟩ := List.mem_map.mp there
      rw [bne_iff_ne]
      rintro rfl
      exact flows (member.mp own)

theorem mem_targets (inside : id < graph.size) (ends : endsInCondition lines (graph.block id) = true) {target : Nat}
    (leads : target ∈ graph.branches id) :
    target ∈ Reach.fresh ((graph.conditionals lines).flatMap Prod.snd) [] := by
  refine Reach.mem_fresh.mpr ⟨List.mem_flatMap.mpr ⟨(id, graph.branches id), ?_, leads⟩, List.not_mem_nil⟩
  exact List.mem_map.mpr ⟨id, List.mem_filter.mpr ⟨List.mem_range.mpr inside, ends⟩, rfl⟩

theorem lt_of_mem_targets (fresh : graph.Fresh) {target : Nat}
    (member : target ∈ Reach.fresh ((graph.conditionals lines).flatMap Prod.snd) []) : target < graph.size := by
  obtain ⟨entry, there, leads⟩ := List.mem_flatMap.mp (Reach.mem_fresh.mp member).1
  obtain ⟨id, own, rfl⟩ := List.mem_map.mp there
  exact fresh.inside id (List.mem_range.mp (List.mem_filter.mp own).1) target leads

/-! ## Links around loops -/

section Links

variable (cut : List (Nat × List Nat)) (copies : List (Nat × Nat))

/-- What a block leads to around loops once the loops are linked. -/
def linked (graph : BlockGraph) (id : Nat) : List Nat :=
  match cut.lookup (graph.origin id) with
  | some targets => targets.filterMap (fun target => copies.lookup target)
  | none => (graph.block id).loopBack

theorem size_linkLoops (graph : BlockGraph) : (graph.linkLoops cut copies).size = graph.size := by
  rw [size, linkLoops, List.length_map, List.length_zipIdx]
  rfl

theorem block_linkLoops (inside : id < graph.size) : (graph.linkLoops cut copies).block id =
    { graph.block id with loopBack := graph.linked cut copies id } := by
  refine block_of_getElem? ?_
  rw [linkLoops, List.getElem?_map, List.getElem?_zipIdx, getElem?_block inside, Nat.zero_add]
  dsimp only [Option.map_some]
  rw [linked, origin]
  cases cut.lookup ((graph.block id).copiedFrom.getD id) <;> rfl

theorem origin_linkLoops (inside : id < graph.size) : (graph.linkLoops cut copies).origin id = graph.origin id := by
  rw [origin, block_linkLoops cut copies inside]
  rfl

theorem branches_linkLoops (inside : id < graph.size) :
    (graph.linkLoops cut copies).branches id = graph.branches id := by
  rw [branches, block_linkLoops cut copies inside]
  rfl

end Links

/-! ## The graph with broken loops -/

/-- A graph whose blocks are copies of those of another one and lead on as those do. -/
structure Unrolled (graph broken : BlockGraph) : Prop where
  length : graph.size ≤ broken.size
  own : ∀ id < graph.size, broken.origin id = id
  origin : ∀ id < broken.size, broken.origin id < graph.size
  body : ∀ id < broken.size, (broken.block id).body = (graph.block (broken.origin id)).body
  flow : ∀ id < broken.size, (broken.block id).flow.map broken.origin = graph.branches (broken.origin id)

/-- Where the parts of a graph begin: the entry is first, and only links around loops lead from one part to
    another. -/
structure Starts (broken : BlockGraph) (starts : List Nat) : Prop where
  first : starts.head? = some start
  order : starts.Pairwise (· < ·)
  inside : ∀ root ∈ starts, root < broken.size
  stays : ∀ id < broken.size, ∀ target ∈ broken.branches id, target < broken.size
  apart : ∀ root ∈ starts, ∀ id < broken.size, ∀ target ∈ broken.branches id, root ≤ target ↔ root ≤ id
  loops : ∀ id < broken.size, ∀ target ∈ (broken.block id).loopBack, target ∈ starts

section Linking

variable {base : BlockGraph} {copies : List (Nat × Nat)} (fresh : graph.Fresh)
  (copied : Copied (graph.withoutConditionals lines) later)
  (origins : copies.map Prod.fst = Reach.fresh ((graph.conditionals lines).flatMap Prod.snd) [])
  (parts : Parts base later copies)

include copied in
theorem origin_lt (inside : id < later.size) : later.origin id < graph.size :=
  graph.size_withoutConditionals lines ▸ copied.origin id inside

include origins in
theorem exists_copy (inside : id < graph.size) (ends : endsInCondition lines (graph.block id) = true) {target : Nat}
    (leads : target ∈ graph.branches id) : ∃ copy, copies.lookup target = some copy ∧ (target, copy) ∈ copies := by
  have member := mem_targets inside ends leads
  rw [← origins] at member
  obtain ⟨entry, there, same⟩ := List.mem_map.mp member
  have isSome := List.lookup_isSome_iff.mpr ⟨entry, there, beq_iff_eq.mpr same.symm⟩
  obtain ⟨copy, found⟩ := Option.isSome_iff_exists.mp isSome
  obtain ⟨front, behind, split, _⟩ := List.lookup_eq_some_iff.mp found
  exact ⟨copy, found, split ▸ List.mem_append_right _ List.mem_cons_self⟩

include copied in
theorem exists_of_mem_linked {target : Nat} (leads : target ∈ later.linked (graph.conditionals lines) copies id) :
    ∃ entry ∈ copies, entry.2 = target := by
  rw [linked] at leads
  split at leads
  · next targets cut =>
      obtain ⟨original, _, found⟩ := List.mem_filterMap.mp leads
      obtain ⟨front, behind, split, _⟩ := List.lookup_eq_some_iff.mp found
      exact ⟨(original, target), split ▸ List.mem_append_right _ List.mem_cons_self, rfl⟩
  · rw [copied.loopless] at leads
    cases leads

include copied origins parts in
theorem map_flow_linked (inside : id < later.size) :
    ((later.block id).branches ++ later.linked (graph.conditionals lines) copies id).map later.origin =
      graph.branches (later.origin id) := by
  have here := origin_lt copied inside
  have direct := copied.branches id inside
  rw [branches, branches, block_withoutConditionals] at direct
  rw [linked, lookup_conditionals here]
  dsimp only at direct
  split at direct
  · next ends =>
      rw [if_pos ends, List.map_eq_nil_iff.mp direct, List.nil_append, List.map_filterMap]
      have same : ∀ target ∈ graph.branches (later.origin id),
          (copies.lookup target).map later.origin = some target := by
        intro target leads
        obtain ⟨copy, found, there⟩ := exists_copy origins here ends leads
        rw [found, Option.map_some, parts.origin (target, copy) there]
      exact (List.filterMap_eq_map_iff_forall_eq_some.mpr same).trans (List.map_id' _)
  · next flows =>
      rw [if_neg flows, copied.loopless, List.append_nil]
      exact direct

include fresh copied origins parts in
theorem unrolled_linkLoops : Unrolled graph (later.linkLoops (graph.conditionals lines) copies) := by
  have size' := graph.size_withoutConditionals lines
  have sameSize := size_linkLoops (graph.conditionals lines) copies later
  have length : graph.size ≤ later.size := size' ▸ copied.length
  refine ⟨by rwa [sameSize], ?_, ?_, ?_, ?_⟩
  · intro id inside
    rw [origin_linkLoops _ _ (Nat.lt_of_lt_of_le inside length)]
    exact copied.own (fresh.withoutConditionals lines) (size'.symm ▸ inside)
  all_goals
    intro id inside
    rw [sameSize] at inside
    rw [origin_linkLoops _ _ inside]
  · exact origin_lt copied inside
  · have same := copied.body id inside
    rw [block_withoutConditionals] at same
    rw [block_linkLoops _ _ inside]
    exact same
  · rw [block_linkLoops _ _ inside, Block.flow, ← map_flow_linked copied origins parts inside]
    refine List.map_congr_left (fun target leads => origin_linkLoops _ _ ?_)
    rcases List.mem_append.mp leads with direct | around
    · exact copied.inside id inside target direct
    · obtain ⟨entry, there, rfl⟩ := exists_of_mem_linked copied around
      exact (parts.inside entry there).2

include copied parts in
theorem starts_linkLoops (inhabited : start < base.size) (length : base.size ≤ later.size) :
    Starts (later.linkLoops (graph.conditionals lines) copies) (start :: copies.map Prod.snd) := by
  have sameSize := size_linkLoops (graph.conditionals lines) copies later
  have positions : ∀ position ∈ copies.map Prod.snd, ∃ entry ∈ copies, entry.2 = position :=
    fun position member => List.mem_map.mp member
  refine ⟨rfl, ?_, ?_, ?_, ?_, ?_⟩
  · refine List.pairwise_cons.mpr ⟨fun position member => ?_, parts.order⟩
    obtain ⟨entry, there, rfl⟩ := positions position member
    exact Nat.lt_of_lt_of_le inhabited (parts.inside entry there).1
  · rw [sameSize]
    refine List.forall_mem_cons.mpr ⟨Nat.lt_of_lt_of_le inhabited length, fun position member => ?_⟩
    obtain ⟨entry, there, rfl⟩ := positions position member
    exact (parts.inside entry there).2
  · intro id inside target leads
    rw [sameSize] at inside ⊢
    rw [branches_linkLoops _ _ inside] at leads
    exact copied.inside id inside target leads
  · refine List.forall_mem_cons.mpr ⟨fun id _ target _ => by simp [start], fun position member id inside target leads => ?_⟩
    obtain ⟨entry, there, rfl⟩ := positions position member
    rw [sameSize] at inside
    rw [branches_linkLoops _ _ inside] at leads
    exact parts.apart entry there id inside target leads
  · intro id inside target leads
    rw [sameSize] at inside
    rw [block_linkLoops _ _ inside] at leads
    obtain ⟨entry, there, rfl⟩ := exists_of_mem_linked copied leads
    exact List.mem_cons_of_mem _ (List.mem_map_of_mem there)

include copied in
theorem unranked_linkLoops (id : Nat) :
    ((later.linkLoops (graph.conditionals lines) copies).block id).rank = none := by
  by_cases inside : id < later.size
  · rw [block_linkLoops _ _ inside]
    exact copied.unranked id
  · rw [block_of_le ((size_linkLoops _ copies later).symm ▸ Nat.le_of_not_lt inside)]
    rfl

end Linking

theorem copied_targets (fresh : graph.Fresh) (lines : Classification) :
    let targets := Reach.fresh ((graph.conditionals lines).flatMap Prod.snd) []
    let copied := (graph.withoutConditionals lines).copyAll targets
    Copied (graph.withoutConditionals lines) copied.1 ∧ copied.2.map Prod.fst = targets ∧
      Parts (graph.withoutConditionals lines) copied.1 copied.2 := by
  have fresh' := fresh.withoutConditionals lines
  have inside : ∀ target ∈ Reach.fresh ((graph.conditionals lines).flatMap Prod.snd) [],
      target < (graph.withoutConditionals lines).size := by
    intro target member
    rw [size_withoutConditionals]
    exact lt_of_mem_targets fresh member
  obtain ⟨copied, _, origins, parts⟩ := copyAll_copied fresh' fresh'.copied inside
  exact ⟨copied, origins, parts⟩

theorem breakLoops_spec (fresh : graph.Fresh) (inhabited : start < graph.size) (lines : Classification) :
    Unrolled graph (graph.breakLoops lines).1 ∧ Starts (graph.breakLoops lines).1 (graph.breakLoops lines).2 ∧
      ∀ id, ((graph.breakLoops lines).1.block id).rank = none := by
  obtain ⟨copied, origins, parts⟩ := copied_targets fresh lines
  exact ⟨unrolled_linkLoops fresh copied origins parts,
    starts_linkLoops copied parts ((graph.size_withoutConditionals lines).symm ▸ inhabited) copied.length,
    unranked_linkLoops copied⟩

end TwoLane.BlockGraph
