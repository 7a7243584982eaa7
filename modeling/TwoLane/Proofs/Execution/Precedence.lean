import TwoLane.Proofs.Execution.Becoming
import TwoLane.Proofs.Schedule.Leading

/-! # What stays in front

Steps take links away and add none, so dependencies only get fewer, and control instructions stand between the others as
before until their list is emptied. So an instruction without occurrences that once stands in front of a classical one
stays there, unless a hybrid instruction of the same run needs the other one.
-/

namespace TwoLane.Execution

open InstructionList (Becomes)
open Schedule (Arranges Parted Unneeded Ahead Leads Valid steers categoryOf isHybrid)

variable {list after : InstructionList} {a b id other : Nat} {map : HybridMap} {index : Nat} {order : List Nat}

/-! ## Dependencies -/

theorem isHolder_of_becomes {resource : Resource} (becomes : list.Becomes after)
    (holds : after.isHolder resource id = true) : list.isHolder resource id = true := by
  obtain ⟨running, node', found, member⟩ := InstructionList.isHolder_iff.mp holds
  obtain ⟨node, there, same⟩ := becomes.nodes found
  exact InstructionList.isHolder_iff.mpr ⟨becomes.order running, node, there, same.resources.subset member⟩

/-- Instructions depend on no more than before. -/
theorem dependencies_shrink (chained : list.Chained) (ordered : Ordered after) (becomes : list.Becomes after)
    (running : id ∈ after.order) : after.dependencies id ⊆ list.dependencies id := by
  have further : ∀ {x y : Nat}, x ∈ after.order → y ∈ after.predecessors x →
      y ∈ after.order ∧ y ∈ list.dependencies x := by
    intro x y runs predecessor
    obtain ⟨resource, holds, nearest⟩ := ordered.chained.of_mem_predecessors runs predecessor
    obtain ⟨below, lower, _⟩ := Nearest.below?_eq_some.mp nearest
    exact ⟨(InstructionList.isHolder_iff.mp lower).1,
      chained.mem_dependencies (isHolder_of_becomes becomes holds) (isHolder_of_becomes becomes lower) below⟩
  -- a predecessor may be a new neighbour, but only across instructions that were removed between the two
  have all : ∀ other ∈ after.dependencies id, other ∈ after.order ∧ other ∈ list.dependencies id := by
    refine InstructionList.dependencies_induction ?_ (fun other predecessor => further running predecessor)
    rintro x ⟨runs, needed⟩ y predecessor
    obtain ⟨runs', needed'⟩ := further runs predecessor
    exact ⟨runs', InstructionList.dependencies_trans needed needed'⟩
  exact fun other needed => (all other needed).2

theorem exists_becomes {node : Instruction} (becomes : list.Becomes after) (found : list.nodes[id]? = some node) :
    ∃ node', after.nodes[id]? = some node' ∧ node.Becomes node' := by
  have inside := (List.getElem?_eq_some_iff.mp found).1
  have found' := List.getElem?_eq_getElem (becomes.length ▸ inside)
  obtain ⟨before, there, same⟩ := becomes.nodes found'
  cases found.symm.trans there
  exact ⟨_, found', same⟩

theorem isHybrid_of_becomes (becomes : list.Becomes after) (hybrid : isHybrid after id = true) :
    isHybrid list id = true := by
  rw [isHybrid, categoryOf, InstructionList.get?] at hybrid ⊢
  cases found : after.nodes[id]? with
  | none =>
      rw [found] at hybrid
      cases hybrid
  | some node' =>
      obtain ⟨node, there, same⟩ := becomes.nodes found
      rw [found] at hybrid
      rw [there]
      exact same.hybrid hybrid

theorem classical_of_becomes (becomes : list.Becomes after) (classical : categoryOf list id = .classical) :
    categoryOf after id = .classical := by
  rw [categoryOf, InstructionList.get?] at classical ⊢
  cases found : list.nodes[id]? with
  | none =>
      rw [found] at classical
      cases classical
  | some node =>
      obtain ⟨node', there, same⟩ := exists_becomes becomes found
      rw [found] at classical
      rw [there]
      exact same.classical classical

theorem steers_of_becomes (becomes : list.Becomes after) (isSteering : steers list id = true) :
    steers after id = true := by
  rw [steers] at isSteering ⊢
  cases found : list.nodes[id]? with
  | none =>
      rw [found] at isSteering
      cases isSteering
  | some node =>
      obtain ⟨node', there, same⟩ := exists_becomes becomes found
      rw [found] at isSteering
      rw [there]
      exact same.control.trans isSteering

/-! ## Control instructions -/

/-- Whether the control instructions of a list still run, and stand to the others as before. -/
structure Sides (list after : InstructionList) : Prop where
  stays : ∀ id ∈ list.order, steers list id = true → id ∈ after.order ∧ steers after id = true
  above : ∀ id ∈ list.order, steers list id = true → ∀ other ∈ after.order,
    list.order.idxOf other ≤ list.order.idxOf id → after.order.idxOf other ≤ after.order.idxOf id
  below : ∀ id ∈ list.order, steers list id = true → ∀ other ∈ after.order,
    list.order.idxOf id ≤ list.order.idxOf other → after.order.idxOf id ≤ after.order.idxOf other

theorem parted_of_sides (sides : Sides list after) (parted : Parted list a b) (aRuns : a ∈ after.order)
    (bRuns : b ∈ after.order) : Parted after a b := by
  obtain ⟨id, running, isSteering, first, second⟩ := parted
  obtain ⟨running', isSteering'⟩ := sides.stays id running isSteering
  exact ⟨id, running', isSteering', sides.above id running isSteering a aRuns first,
    sides.below id running isSteering b bRuns second⟩

/-- What is needed by fewer is not needed either. -/
theorem unneeded_of_sides (chained : list.Chained) (ordered : Ordered after) (becomes : list.Becomes after)
    (sides : Sides list after) (unneeded : Unneeded list b) (bRuns : b ∈ after.order) : Unneeded after b := by
  intro hybrid running isHybrid' needed
  refine parted_of_sides sides ?_ bRuns running
  exact unneeded hybrid (becomes.order running) (isHybrid_of_becomes becomes isHybrid')
    (dependencies_shrink chained ordered becomes running needed)

theorem idxOf_le_of_sublist {before behind : List Nat} (distinct : before.Nodup) (sublist : behind.Sublist before)
    (aRuns : a ∈ behind) (le : before.idxOf a ≤ before.idxOf b) : behind.idxOf a ≤ behind.idxOf b := by
  by_contra above
  have turned := Schedule.sublist_of_idxOf_lt aRuns (Nat.lt_of_not_le above)
  have := Schedule.idxOf_lt_of_sublist distinct (turned.trans sublist)
  omega

/-- Where a list loses no control instructions and is not reordered, they stand as before. -/
theorem sides_of_sublist (distinct : list.order.Nodup) (becomes : list.Becomes after)
    (sublist : after.order.Sublist list.order)
    (kept : ∀ id ∈ list.order, steers list id = true → id ∈ after.order) : Sides list after where
  stays := fun id running isSteering => ⟨kept id running isSteering, steers_of_becomes becomes isSteering⟩
  above := fun _ _ _ _ runs le => idxOf_le_of_sublist distinct sublist runs le
  below := fun id running isSteering _ _ le => idxOf_le_of_sublist distinct sublist (kept id running isSteering) le

/-- An arrangement leaves control instructions where they are, behind the same instructions. -/
theorem sides_of_arranges (arranges : Arranges list order) : Sides list { list with order := order } := by
  have place : ∀ id ∈ list.order, steers list id = true → order.idxOf id = list.order.idxOf id ∧
      ∀ other ∈ order, (order.idxOf other < order.idxOf id ↔ list.order.idxOf other < list.order.idxOf id) := by
    intro id running isSteering
    obtain ⟨there, perm⟩ := arranges.inPlace (List.getElem?_idxOf running) isSteering
    obtain ⟨inside, same⟩ := List.getElem?_eq_some_iff.mp there
    have position : order.idxOf id = list.order.idxOf id := by
      rw [← arranges.emission.distinct.idxOf_getElem _ inside, same]
    refine ⟨position, fun other runs => ?_⟩
    rw [position, ← List.mem_take_iff_idxOf_lt runs, ← List.mem_take_iff_idxOf_lt (arranges.perm.mem_iff.mpr runs)]
    exact perm.mem_iff.symm
  refine ⟨fun id running isSteering => ⟨arranges.perm.mem_iff.mp running, isSteering⟩, ?_, ?_⟩
  · intro id running isSteering other runs le
    obtain ⟨_, before⟩ := place id running isSteering
    change order.idxOf other ≤ order.idxOf id
    by_cases same : other = id
    · rw [same]
    · have less : list.order.idxOf other < list.order.idxOf id := by
        refine lt_of_le_of_ne le (fun equal => same ?_)
        exact (List.idxOf_inj (arranges.perm.mem_iff.mpr runs)).mp equal
      exact ((before other runs).mpr less).le
  · intro id running isSteering other runs le
    obtain ⟨_, before⟩ := place id running isSteering
    exact Nat.le_of_not_lt (fun less => absurd ((before other runs).mp less) (by omega))

/-! ## Steady instructions -/

/-- Whether an instruction without occurrences stands in front of another one, and nothing asks for the other one
    earlier: a control instruction parts them, or the other one is classical and not needed in its run. -/
structure Steady (list : InstructionList) (a b : Nat) : Prop where
  idle : ∃ node, list.nodes[a]? = some node ∧ node.category = .classical ∧ node.resources = []
  before : list.order.idxOf a < list.order.idxOf b
  settled : Parted list a b ∨ categoryOf list b = .classical ∧ Unneeded list b

theorem Steady.ahead (steady : Steady list a b) (bRuns : b ∈ list.order) (classical : categoryOf list b = .classical) :
    Ahead list a b where
  idle := by
    obtain ⟨node, found, _, resources⟩ := steady.idle
    obtain ⟨memory, qubits⟩ := List.append_eq_nil_iff.mp resources
    rw [InstructionList.predecessors, InstructionList.get?, found]
    simp [Instruction.previous, List.map_eq_nil_iff.mp memory, List.map_eq_nil_iff.mp qubits, Sorted.ofList,
      Sorted.union]
  classical := by
    obtain ⟨node, found, own, _⟩ := steady.idle
    refine ⟨?_, classical⟩
    rw [categoryOf, InstructionList.get?, found]
    exact own
  stands := Schedule.sublist_of_idxOf_lt bRuns steady.before

theorem Steady.of_sides (steady : Steady list a b) (chained : list.Chained) (ordered : Ordered after)
    (becomes : list.Becomes after) (sides : Sides list after) (aRuns : a ∈ after.order) (bRuns : b ∈ after.order)
    (before : categoryOf list b = .classical → Unneeded list b → after.order.idxOf a < after.order.idxOf b) :
    Steady after a b := by
  obtain ⟨node, found, classical, resources⟩ := steady.idle
  obtain ⟨node', found', same⟩ := exists_becomes becomes found
  have category := same.classical classical
  refine ⟨⟨node', found', category, List.subset_nil.mp (resources ▸ same.resources.subset)⟩, ?_, ?_⟩
  · rcases steady.settled with parted | ⟨plain, unneeded⟩
    · obtain ⟨id, running, isSteering, first, second⟩ := parted_of_sides sides parted aRuns bRuns
      refine lt_of_lt_of_le (lt_of_le_of_ne first (fun equal => ?_)) second
      rw [← (List.idxOf_inj aRuns).mp equal, steers, found'] at isSteering
      change node'.category.isControl = true at isSteering
      rw [category] at isSteering
      cases isSteering
    · exact before plain unneeded
  · refine steady.settled.imp (fun parted => parted_of_sides sides parted aRuns bRuns) ?_
    rintro ⟨plain, unneeded⟩
    exact ⟨classical_of_becomes becomes plain, unneeded_of_sides chained ordered becomes sides unneeded bRuns⟩

/-! ## Steps -/

theorem not_control_of_mem_deadIds {readout : List String} {live : LiveSet} {nodes : List Instruction}
    (member : id ∈ Liveness.deadIds (Liveness.judge readout live nodes).2) :
    ∃ node ∈ nodes, node.id = id ∧ node.category.isControl = false := by
  induction nodes with
  | nil => cases member
  | cons node rest ih =>
      have later : id ∈ Liveness.deadIds (Liveness.judge readout live rest).2 →
          ∃ other ∈ node :: rest, other.id = id ∧ other.category.isControl = false := by
        intro further
        obtain ⟨other, there, same⟩ := ih further
        exact ⟨other, List.mem_cons_of_mem _ there, same⟩
      rw [Liveness.deadIds_cons] at member
      split at member
      · next dead =>
        rcases List.mem_cons.mp member with rfl | further
        · refine ⟨node, List.mem_cons_self, rfl, ?_⟩
          simp only [Liveness.isDead, Bool.and_eq_true, Bool.not_eq_true'] at dead
          exact dead.1.1.1
        · exact later further
      · exact later member

/-- A removal leaves control instructions unless it empties the list. -/
theorem kept_of_doomed {ids : List Nat} (chained : list.Chained) (doomed : Doomed list ids)
    (removal : list.removeAll ids = .ok after) (runs : a ∈ after.order) :
    after.order.Sublist list.order ∧ ∀ id ∈ list.order, steers list id = true → id ∈ after.order := by
  have order := (InstructionList.sameButLinks_of_removeAll removal).order
  change list.order.filter (fun other => !ids.contains other) = after.order at order
  refine ⟨order ▸ List.filter_sublist, fun id running isSteering => ?_⟩
  rw [← order] at runs ⊢
  refine List.mem_filter.mpr ⟨running, ?_⟩
  rw [Bool.not_eq_true', ← Bool.not_eq_true, List.contains_iff_mem]
  intro gone
  rcases doomed with rfl | ⟨readout, live, rfl⟩
  · obtain ⟨own, kept⟩ := List.mem_filter.mp runs
    simp [own] at kept
  · obtain ⟨node, member, number, plain⟩ := not_control_of_mem_deadIds gone
    obtain ⟨_, found⟩ := InstructionList.id_of_mem_running chained.numbered member
    rw [steers, ← number, found] at isSteering
    exact absurd (plain.symm.trans isSteering) (by decide)

theorem Steady.of_sublist (steady : Steady list a b) (regular : Regular list) (ordered : Ordered after)
    (becomes : list.Becomes after) (sublist : after.order.Sublist list.order)
    (kept : ∀ id ∈ list.order, steers list id = true → id ∈ after.order) (aRuns : a ∈ after.order)
    (bRuns : b ∈ after.order) : Steady after a b := by
  have distinct := regular.ordered.chained.order
  refine steady.of_sides regular.ordered.chained ordered becomes (sides_of_sublist distinct becomes sublist kept) aRuns
    bRuns (fun _ _ => ?_)
  refine lt_of_le_of_ne (idxOf_le_of_sublist distinct sublist aRuns steady.before.le) (fun equal => ?_)
  exact absurd steady.before (by rw [(List.idxOf_inj aRuns).mp equal]; exact lt_irrefl _)

theorem Steady.of_scheduled (steady : Steady list a b) (regular : Regular list) (holds : map.Holds list)
    (scheduled : Scheduled map list order) (installed : list.reorder order = .ok after) (aRuns : a ∈ after.order)
    (bRuns : b ∈ after.order) : Steady after a b := by
  have chained := regular.ordered.chained
  have valid := Schedule.valid_of_ordered regular.ordered
  have becomes := becomes_reorder installed
  obtain ⟨rfl, _⟩ := InstructionList.of_reorder_eq_ok installed
  have arranged : Arranges list order ∧ (categoryOf list b = .classical → Unneeded list b → Leads a b order) := by
    have bRuns' := becomes.order bRuns
    -- all three schedulers emit piece by piece, and give nothing where the order stays
    have given : ∀ {emitted : List Nat}, order = Schedule.orNothing list emitted → Arranges list emitted →
        (categoryOf list b = .classical → Unneeded list b → Leads a b emitted) →
        Arranges list order ∧ (categoryOf list b = .classical → Unneeded list b → Leads a b order) := by
      intro emitted same arranges leads
      rw [Schedule.orNothing] at same
      split at same
      · rw [same] at aRuns
        cases aRuns
      · exact same ▸ ⟨arranges, leads⟩
    cases scheduled with
    | early =>
        exact given rfl (Schedule.arranges_foldl valid (fun _ _ _ follows => Schedule.emits_early valid follows))
          (fun plain unneeded => (steady.ahead bRuns' plain).leads_early valid unneeded)
    | late =>
        exact given rfl (Schedule.arranges_foldl valid (fun _ _ _ follows => Schedule.emits_late valid follows))
          (fun plain unneeded => (steady.ahead bRuns' plain).leads_late valid unneeded)
    | balanced balances =>
        rw [Schedule.balanced] at balances
        split at balances
        · cases balances
        · refine given (Except.ok.inj balances).symm
            (Schedule.arranges_foldl valid (fun _ _ _ follows => Schedule.emits_balanced valid holds follows))
            (fun plain unneeded => (steady.ahead bRuns' plain).leads_balanced valid holds unneeded)
  obtain ⟨arranges, leads⟩ := arranged
  refine steady.of_sides chained (arranges.reorders regular.ordered).ordered becomes (sides_of_arranges arranges) aRuns
    bRuns (fun plain unneeded => ?_)
  exact Schedule.idxOf_lt_of_sublist arranges.emission.distinct (leads plain unneeded bRuns)

/-- Whatever a step makes of a list, steady instructions that are left stay steady. -/
theorem Steady.evolves (steady : Steady list a b) (regular : Regular list) (regular' : Regular after)
    (holds : map.Holds list) (evolves : Evolves map index list after) (aRuns : a ∈ after.order)
    (bRuns : b ∈ after.order) : Steady after a b := by
  have becomes := evolves.becomes regular.ordered.chained.numbered
  have unmoved : after.order = list.order → Steady after a b := fun same =>
    steady.of_sublist regular regular'.ordered becomes (same ▸ .refl _) (fun _ running _ => same ▸ running) aRuns bRuns
  cases evolves with
  | stays => exact steady
  | marked judged => exact unmoved (InstructionList.sameShape_mark list judged).order.symm
  | annotated =>
      refine unmoved ?_
      rw [Constants.propagateList, InstructionList.annotateAll_fst]
      exact (InstructionList.sameButFacts_foldl _ list list.order).order.symm
  | folded => exact unmoved (foldList_spec regular index).2
  | removed doomed removal =>
      obtain ⟨sublist, kept⟩ := kept_of_doomed regular.ordered.chained doomed removal aRuns
      exact steady.of_sublist regular regular'.ordered becomes sublist kept aRuns bRuns
  | reordered scheduled installed => exact steady.of_scheduled regular holds scheduled installed aRuns bRuns

end TwoLane.Execution
