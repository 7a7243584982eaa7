import Mathlib.Algebra.GroupWithZero.Nat
import Mathlib.Algebra.Order.BigOperators.Group.List
import Mathlib.Tactic.Tauto
import TwoLane.Block.Dominance
import TwoLane.Proofs.Sorted

/-! # Dominance is what no way avoids

A visit lets what may dominate a block only get less, and never takes away what every way to the block passes. So rounds
come to an end within the bound. By then the predecessors of each block agree on what it has, and along any way to it the
dominators of one block carry over to the next.
-/

namespace TwoLane

namespace BlockGraph

/-- The ways along branches from a root, each with the blocks on it and the block where it ends. -/
inductive Way (graph : BlockGraph) (root : Nat) : List Nat → Nat → Prop where
  | start : Way graph root [root] root
  | onward {way : List Nat} {id target : Nat} :
      Way graph root way id → target ∈ graph.branches id → Way graph root (way ++ [target]) target

/-- Whether there is a way from a root to a block. -/
def LeadsTo (graph : BlockGraph) (root id : Nat) : Prop :=
  ∃ way, graph.Way root way id

/-- Whether a block is another one than a second block, and every way from a root to the second one passes it. -/
def Dominates (graph : BlockGraph) (root d id : Nat) : Prop :=
  d ≠ id ∧ ∀ way, graph.Way root way id → d ∈ way

variable {graph : BlockGraph} {root d id other : Nat} {way members : List Nat} {known later : Dominance}

/-! ## Ways -/

theorem Way.root_mem (leads : graph.Way root way id) : root ∈ way := by
  induction leads with
  | start => simp
  | onward _ _ ih => simp [ih]

theorem Way.last_mem (leads : graph.Way root way id) : id ∈ way := by
  cases leads <;> simp

/-- A way to a block that is on another way, which comes to that block only once. -/
theorem Way.arrival (leads : graph.Way root way other) (member : id ∈ way) :
    ∃ front, graph.Way root (front ++ [id]) id ∧ id ∉ front ∧ front ⊆ way := by
  induction leads with
  | start =>
      cases List.mem_singleton.mp member
      exact ⟨[], .start, by simp, by simp⟩
  | @onward way other target leads branches ih =>
      by_cases early : id ∈ way
      · obtain ⟨front, there, once, subset⟩ := ih early
        exact ⟨front, there, once, List.subset_append_of_subset_left _ subset⟩
      · have last : id = target := by simpa [early] using member
        subst last
        exact ⟨way, .onward leads branches, early, List.subset_append_left _ _⟩

theorem Way.mem_of_closed (leads : graph.Way root way id) (begins : root ∈ members)
    (closed : ∀ id ∈ members, ∀ target ∈ graph.branches id, target ∈ members) : id ∈ members := by
  induction leads with
  | start => exact begins
  | onward _ branches ih => exact closed _ ih _ branches

theorem not_dominates_root : ¬ graph.Dominates root d root := by
  rintro ⟨differ, all⟩
  exact differ (List.mem_singleton.mp (all [root] .start))

theorem Dominates.through (dominates : graph.Dominates root d id) (leads : id ∈ graph.branches other) :
    d = other ∨ graph.Dominates root d other := by
  by_cases same : d = other
  · exact .inl same
  · refine .inr ⟨same, fun way there => ?_⟩
    have passed := dominates.2 _ (.onward there leads)
    simpa [dominates.1] using passed

theorem mem_predecessorsIn : other ∈ graph.predecessorsIn members id ↔ other ∈ members ∧ id ∈ graph.branches other := by
  simp [predecessorsIn]

end BlockGraph

/-! ## What predecessors agree on -/

namespace Dominance

variable {known later : Dominance} {predecessors members found : List Nat} {d : Nat}

theorem foldl_agree {first : Option (List Nat)} (agrees : predecessors.foldl known.agree first = some found) :
    d ∈ found ↔ (∀ others, first = some others → d ∈ others) ∧
      ∀ p ∈ predecessors, ∀ outer, known.get? p = some outer → d = p ∨ d ∈ outer := by
  induction predecessors generalizing first with
  | nil =>
      cases agrees
      simp
  | cons p rest ih =>
      rw [ih agrees]
      cases there : known.get? p with
      | none => simp [agree, there]
      | some outer =>
          cases first with
          | none => simp [agree, there]
          | some others =>
              simp [agree, there]
              tauto

theorem mem_agreed (agrees : known.agreed predecessors = some found) :
    d ∈ found ↔ ∀ p ∈ predecessors, ∀ outer, known.get? p = some outer → d = p ∨ d ∈ outer := by
  simpa using foldl_agree (d := d) agrees

theorem agreed_isSome :
    (known.agreed predecessors).isSome = true ↔ ∃ p ∈ predecessors, (known.get? p).isSome = true := by
  have all : ∀ first, (predecessors.foldl known.agree first).isSome = true ↔
      first.isSome = true ∨ ∃ p ∈ predecessors, (known.get? p).isSome = true := by
    induction predecessors with
    | nil => simp
    | cons p rest ih =>
        intro first
        rw [List.foldl_cons, ih]
        cases there : known.get? p with
        | none => simp [agree, there]
        | some outer => cases first <;> simp [agree, there]
  exact (all none).trans (by simp)

theorem agreed_induction (property : List Nat → Prop)
    (part : ∀ p ∈ predecessors, ∀ outer, known.get? p = some outer → property (Sorted.insert p outer))
    (fewer : ∀ (others : List Nat) (keeps : Nat → Bool), property others → property (others.filter keeps))
    (agrees : known.agreed predecessors = some found) : property found := by
  have all : ∀ first : Option (List Nat), (∀ others, first = some others → property others) →
      predecessors.foldl known.agree first = some found → property found := by
    clear agrees
    induction predecessors with
    | nil => exact fun first own same => own found same
    | cons p rest ih =>
        intro first own same
        refine ih (fun q member => part q (List.mem_cons_of_mem _ member)) _ ?_ same
        intro others step
        rw [agree] at step
        split at step
        · exact own others step
        · next outer there =>
          split at step
          · cases step
            exact part p List.mem_cons_self outer there
          · cases step
            exact fewer _ _ (own _ rfl)
  exact all none (by simp) agrees

/-- Whether each block has no more dominators than before, and is known where it was. -/
def Lower (known later : Dominance) : Prop :=
  ∀ id found, known.get? id = some found → ∃ less, later.get? id = some less ∧ less ⊆ found

theorem Lower.agreed (lower : known.Lower later) (agrees : known.agreed predecessors = some found) :
    ∃ less, later.agreed predecessors = some less ∧ less ⊆ found := by
  have any : (later.agreed predecessors).isSome = true := by
    obtain ⟨p, member, isKnown⟩ := agreed_isSome.mp (Option.isSome_of_eq_some agrees)
    obtain ⟨outer, there⟩ := Option.isSome_iff_exists.mp isKnown
    obtain ⟨less, there', _⟩ := lower p outer there
    exact agreed_isSome.mpr ⟨p, member, Option.isSome_of_eq_some there'⟩
  obtain ⟨less, agrees'⟩ := Option.isSome_iff_exists.mp any
  refine ⟨less, agrees', fun d member => (mem_agreed agrees).mpr ?_⟩
  intro p there outer isKnown
  obtain ⟨less', isKnown', subset⟩ := lower p outer isKnown
  exact ((mem_agreed agrees').mp member p there less' isKnown').imp_right (fun further => subset further)

/-- How much there is left to take away, where a block that no round has come to counts most. -/
def weight (members : List Nat) (known : Dominance) : Nat :=
  (members.map (fun id => ((known.get? id).map List.length).getD (members.length + 1))).sum

/-! ## Visits -/

/-- What holds of the dominators found so far: they are blocks of the region, a visit would only take some away, and all that
    dominates a block is still there. -/
structure Descending (graph : BlockGraph) (root : Nat) (members : List Nat) (known : Dominance) : Prop where
  first : known.get? root = some []
  inside : ∀ id found, known.get? id = some found → id ∈ members ∧ found ⊆ members
  increasing : ∀ id found, known.get? id = some found → Sorted.Increasing found
  falls : ∀ id, id ≠ root → ∀ found, known.get? id = some found →
    ∃ less, known.agreed (graph.predecessorsIn members id) = some less ∧ less ⊆ found
  holds : ∀ id found, known.get? id = some found → ∀ d, graph.Dominates root d id → d ∈ found

/-- Whether no visit would change anything. -/
def Settled (graph : BlockGraph) (members ids : List Nat) (known : Dominance) : Prop :=
  ∀ id ∈ ids, ∀ found, known.agreed (graph.predecessorsIn members id) = some found → known.get? id = some found

variable {graph : BlockGraph} {root id bound : Nat} {ids : List Nat}

theorem Descending.lower (descending : Descending graph root members known) (other : id ≠ root)
    (agrees : known.agreed (graph.predecessorsIn members id) = some found) : known.Lower (known.put id found) := by
  intro j old there
  rw [Table.get?_put]
  split
  · next here =>
      subst here
      obtain ⟨less, agrees', subset⟩ := descending.falls j other old there
      cases agrees.symm.trans agrees'
      exact ⟨found, rfl, subset⟩
  · exact ⟨old, there, List.Subset.refl _⟩

theorem Descending.subset (descending : Descending graph root members known)
    (agrees : known.agreed (graph.predecessorsIn members id) = some found) : found ⊆ members := by
  refine agreed_induction (· ⊆ members) ?_ ?_ agrees
  · intro p member outer there d within
    rcases Sorted.mem_insert.mp within with rfl | further
    · exact (BlockGraph.mem_predecessorsIn.mp member).1
    · exact (descending.inside p outer there).2 further
  · exact fun others keeps within d member => within (List.mem_filter.mp member).1

theorem Descending.sorted (descending : Descending graph root members known)
    (agrees : known.agreed (graph.predecessorsIn members id) = some found) : Sorted.Increasing found := by
  refine agreed_induction Sorted.Increasing ?_ ?_ agrees
  · exact fun p _ outer there => Sorted.increasing_insert (descending.increasing p outer there)
  · exact fun others keeps sorted => sorted.sublist List.filter_sublist

theorem Descending.put (descending : Descending graph root members known) (member : id ∈ members) (other : id ≠ root)
    (agrees : known.agreed (graph.predecessorsIn members id) = some found) :
    Descending graph root members (known.put id found) where
  first := by rw [Table.get?_put_of_ne other.symm, descending.first]
  inside := by
    intro j new there
    rw [Table.get?_put] at there
    split at there
    · next here =>
        cases there
        exact ⟨here ▸ member, descending.subset agrees⟩
    · exact descending.inside j new there
  increasing := by
    intro j new there
    rw [Table.get?_put] at there
    split at there
    · cases there
      exact descending.sorted agrees
    · exact descending.increasing j new there
  falls := by
    intro j differ new there
    have lower := descending.lower other agrees
    rw [Table.get?_put] at there
    split at there
    · next here =>
        cases there
        exact lower.agreed (here ▸ agrees)
    · obtain ⟨less, agrees', subset⟩ := descending.falls j differ new there
      obtain ⟨least, agrees'', subset'⟩ := lower.agreed agrees'
      exact ⟨least, agrees'', List.Subset.trans subset' subset⟩
  holds := by
    intro j new there d dominates
    rw [Table.get?_put] at there
    split at there
    · next here =>
        cases there
        subst here
        refine (mem_agreed agrees).mpr (fun p leads outer isKnown => ?_)
        exact (dominates.through (BlockGraph.mem_predecessorsIn.mp leads).2).imp_right
          (descending.holds p outer isKnown d)
    · exact descending.holds j new there d dominates

/-- A change takes something away. -/
theorem Descending.weight_put (descending : Descending graph root members known) (member : id ∈ members)
    (other : id ≠ root) (agrees : known.agreed (graph.predecessorsIn members id) = some found)
    (new : known.get? id ≠ some found) : weight members (known.put id found) < weight members known := by
  have few : found.length ≤ members.length :=
    ((descending.sorted agrees).nodup.subperm (descending.subset agrees)).length_le
  have here : found.length < ((known.get? id).map List.length).getD (members.length + 1) := by
    cases there : known.get? id with
    | none => simpa using Nat.lt_succ_of_le few
    | some old =>
        obtain ⟨less, agrees', subset⟩ := descending.falls id other old there
        cases agrees.symm.trans agrees'
        have differ : found ≠ old := fun same => new (same ▸ there)
        exact (descending.sorted agrees).length_lt (descending.increasing id old there) subset differ
  apply List.sum_lt_sum
  · intro j _
    rw [Table.get?_put]
    split
    · next same => exact same ▸ Nat.le_of_lt here
    · exact Nat.le_refl _
  · exact ⟨id, member, by simpa using here⟩

theorem Descending.visit (descending : Descending graph root members known) (changed : Bool) (member : id ∈ members)
    (other : id ≠ root) :
    let next := Dominance.visit (graph.predecessorsIn members) (known, changed) id
    Descending graph root members next.1 ∧ ((next = (known, changed) ∧ Settled graph members [id] known) ∨
      (next.2 = true ∧ weight members next.1 < weight members known)) := by
  cases agrees : known.agreed (graph.predecessorsIn members id) with
  | none => simpa [Dominance.visit, Settled, agrees] using descending
  | some found =>
      by_cases same : known.get? id = some found
      · simpa [Dominance.visit, Settled, agrees, same] using descending
      · have less := descending.weight_put member other agrees same
        simpa [Dominance.visit, agrees, same] using ⟨descending.put member other agrees, .inr less⟩

/-! ## Rounds -/

theorem Descending.round (descending : Descending graph root members known) (changed : Bool)
    (inside : ∀ id ∈ ids, id ∈ members ∧ id ≠ root) :
    let next := ids.foldl (Dominance.visit (graph.predecessorsIn members)) (known, changed)
    Descending graph root members next.1 ∧ ((next = (known, changed) ∧ Settled graph members ids known) ∨
      (next.2 = true ∧ weight members next.1 < weight members known)) := by
  induction ids generalizing known changed with
  | nil => exact ⟨descending, .inl ⟨rfl, fun id member => absurd member List.not_mem_nil⟩⟩
  | cons id rest ih =>
      obtain ⟨⟨member, other⟩, later⟩ := List.forall_mem_cons.mp inside
      have visited := descending.visit changed member other
      rw [List.foldl_cons]
      generalize Dominance.visit (graph.predecessorsIn members) (known, changed) id = next at visited ⊢
      obtain ⟨known', changed'⟩ := next
      obtain ⟨descending', ⟨same, settled⟩ | ⟨changes, less⟩⟩ := visited
      · cases same
        obtain ⟨last, ⟨same, settled'⟩ | further⟩ := ih descending' changed later
        · exact ⟨last, .inl ⟨same, List.forall_mem_cons.mpr ⟨settled id List.mem_cons_self, settled'⟩⟩⟩
        · exact ⟨last, .inr further⟩
      · obtain ⟨last, ⟨same, _⟩ | ⟨changes', less'⟩⟩ := ih descending' changed' later
        · exact ⟨last, .inr (by simpa [same] using ⟨changes, less⟩)⟩
        · exact ⟨last, .inr ⟨changes', Nat.lt_trans less' less⟩⟩

/-- Rounds end with one that changes nothing. -/
theorem Descending.rounds (descending : Descending graph root members known)
    (inside : ∀ id ∈ ids, id ∈ members ∧ id ≠ root) (enough : weight members known < bound) :
    Descending graph root members (Dominance.rounds (graph.predecessorsIn members) ids bound known) ∧
      Settled graph members ids (Dominance.rounds (graph.predecessorsIn members) ids bound known) := by
  induction bound generalizing known with
  | zero => omega
  | succ bound ih =>
      obtain ⟨descending', result⟩ := descending.round false inside
      rw [Dominance.rounds]
      rcases result with ⟨same, settled⟩ | ⟨changes, less⟩
      · rw [same]
        exact ⟨descending, settled⟩
      · simp only [changes, if_true]
        exact ih descending' (by omega)

theorem descending_first (member : root ∈ members) : Descending graph root members [(root, [])] where
  first := by simp [Table.get?]
  inside := by
    intro id found there
    simp only [Table.get?] at there
    split at there
    · next here =>
        cases there
        exact ⟨here ▸ member, List.nil_subset _⟩
    · cases there
  increasing := by
    intro id found there
    simp only [Table.get?] at there
    split at there
    · cases there
      exact Sorted.increasing_nil
    · cases there
  falls := by
    intro id other found there
    simp [Table.get?, other] at there
  holds := by
    intro id found there d dominates
    simp only [Table.get?] at there
    split at there
    · next here =>
        subst here
        exact absurd dominates BlockGraph.not_dominates_root
    · cases there

theorem weight_first (root : Nat) (members : List Nat) : weight members [(root, [])] < roundBound members := by
  have most : ∀ count ∈ members.map (fun id => ((Table.get? id [(root, ([] : List Nat))]).map List.length).getD
      (members.length + 1)), count ≤ members.length + 1 := by
    intro count member
    obtain ⟨id, _, rfl⟩ := List.mem_map.mp member
    simp only [Table.get?]
    split <;> simp
  have sum := List.sum_le_card_nsmul _ _ most
  rw [List.length_map] at sum
  exact Nat.lt_succ_of_le sum

/-- What is found of a region in the end: no visit would change it. -/
theorem found_dominance (graph : BlockGraph) (member : root ∈ members) :
    Descending graph root members (graph.dominance root members) ∧
      Settled graph members (members.filter (fun id => id != root)) (graph.dominance root members) := by
  apply (descending_first member).rounds
  · simp
  · exact weight_first root members

theorem increasing_dominance (graph : BlockGraph) (member : root ∈ members) (id : Nat) :
    Sorted.Increasing ((graph.dominance root members).of id) := by
  rw [Dominance.of]
  cases there : (graph.dominance root members).get? id with
  | none => exact Sorted.increasing_nil
  | some found => exact (found_dominance graph member).1.increasing id found there

end Dominance

/-! ## Exactness -/

namespace BlockGraph

open Dominance

variable {graph : BlockGraph} {root d id : Nat} {way members : List Nat} (begins : root ∈ members)
  (closed : ∀ id ∈ members, ∀ target ∈ graph.branches id, target ∈ members)

include begins closed in
/-- Along a way every block becomes known, and what is found to dominate it was passed before. -/
theorem Way.dominance (leads : graph.Way root way id) :
    ∃ found, (graph.dominance root members).get? id = some found ∧ found ⊆ way.dropLast := by
  obtain ⟨descending, settled⟩ := found_dominance graph begins
  induction leads with
  | start => exact ⟨[], descending.first, List.nil_subset _⟩
  | @onward way id target leads branches ih =>
      rw [List.dropLast_concat]
      by_cases same : target = root
      · exact ⟨[], same ▸ descending.first, List.nil_subset _⟩
      · obtain ⟨outer, isKnown, passed⟩ := ih
        have here := leads.mem_of_closed begins closed
        have predecessor := mem_predecessorsIn.mpr ⟨here, branches⟩
        obtain ⟨found, agrees⟩ := Option.isSome_iff_exists.mp
          (agreed_isSome.mpr ⟨id, predecessor, Option.isSome_of_eq_some isKnown⟩)
        refine ⟨found, settled target ?_ found agrees, fun d member => ?_⟩
        · simpa [same] using closed id here target branches
        · rcases (mem_agreed agrees).mp member id predecessor outer isKnown with rfl | further
          · exact leads.last_mem
          · exact List.dropLast_subset _ (passed further)

include begins closed in
/-- The dominators found for a block are the other blocks that every way to it passes. -/
theorem mem_dominance (leads : graph.Way root way id) :
    d ∈ (graph.dominance root members).of id ↔ graph.Dominates root d id := by
  obtain ⟨found, isKnown, _⟩ := leads.dominance begins closed
  have all : (graph.dominance root members).of id = found := by simp [Dominance.of, isKnown]
  rw [all]
  constructor
  · intro member
    refine ⟨?_, fun way' leads' => ?_⟩
    · -- on a way that comes to the block only once the block is not passed before
      obtain ⟨front, once, absent, _⟩ := leads.arrival leads.last_mem
      obtain ⟨found', isKnown', passed⟩ := once.dominance begins closed
      cases isKnown.symm.trans isKnown'
      rintro rfl
      exact absent (by simpa using passed member)
    · obtain ⟨found', isKnown', passed⟩ := leads'.dominance begins closed
      cases isKnown.symm.trans isKnown'
      exact List.dropLast_subset _ (passed member)
  · exact (found_dominance graph begins).1.holds id found isKnown d

end BlockGraph

end TwoLane
