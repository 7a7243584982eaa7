import TwoLane.Proofs.Block.Reach
import TwoLane.Proofs.Chain.Exact
import TwoLane.Proofs.Sorted

/-! # Dependencies

The direct predecessors of an instruction are the nearest ones before it on its chains. What it depends on holds them,
and with each instruction that one's predecessors.
-/

namespace TwoLane.InstructionList

variable {list : InstructionList} {id other : Nat} {node : Instruction} {resource : Resource}

theorem memory?_of_mem (distinct : node.resources.Nodup) {o : MemoryOccurrence} (member : o ∈ node.memory) :
    node.memory? o.name = some o := by
  have present : (node.memory? o.name).isSome = true := by
    rw [Instruction.memory?, List.find?_isSome]
    exact ⟨o, member, beq_self_eq_true _⟩
  obtain ⟨found, there⟩ := Option.isSome_iff_exists.mp present
  have names : (node.memory.map (fun o => Resource.memory o.name)).Nodup := (List.nodup_append.mp distinct).1
  have same := List.inj_on_of_nodup_map names (List.mem_of_find?_eq_some there) member
    (congrArg Resource.memory (Instruction.memory?_name there))
  rw [there, same]

theorem qubit?_of_mem (distinct : node.resources.Nodup) {o : QubitOccurrence} (member : o ∈ node.qubits) :
    node.qubit? o.name = some o := by
  have present : (node.qubit? o.name).isSome = true := by
    rw [Instruction.qubit?, List.find?_isSome]
    exact ⟨o, member, beq_self_eq_true _⟩
  obtain ⟨found, there⟩ := Option.isSome_iff_exists.mp present
  have names : (node.qubits.map (fun o => Resource.qubit o.name)).Nodup := (List.nodup_append.mp distinct).2.1
  have same := List.inj_on_of_nodup_map names (List.mem_of_find?_eq_some there) member
    (congrArg Resource.qubit (Instruction.qubit?_name there))
  rw [there, same]

/-- The neighbours in front of an instruction are those on its chains. -/
theorem mem_previous (distinct : node.resources.Nodup) :
    other ∈ node.previous ↔ ∃ resource links, node.links? resource = some links ∧ other ∈ links.previous := by
  constructor
  · intro member
    rcases List.mem_append.mp member with memory | qubit
    · obtain ⟨o, there, linked⟩ := List.mem_flatMap.mp memory
      exact ⟨.memory o.name, o.links, congrArg (Option.map MemoryOccurrence.links) (memory?_of_mem distinct there),
        linked⟩
    · obtain ⟨o, there, linked⟩ := List.mem_flatMap.mp qubit
      exact ⟨.qubit o.name, o.links, congrArg (Option.map QubitOccurrence.links) (qubit?_of_mem distinct there),
        linked⟩
  · rintro ⟨resource, links, found, linked⟩
    cases resource with
    | memory name =>
        obtain ⟨o, there, rfl⟩ := Option.map_eq_some_iff.mp found
        exact List.mem_append_left _ (List.mem_flatMap.mpr ⟨o, List.mem_of_find?_eq_some there, linked⟩)
    | qubit name =>
        obtain ⟨o, there, rfl⟩ := Option.map_eq_some_iff.mp found
        exact List.mem_append_right _ (List.mem_flatMap.mpr ⟨o, List.mem_of_find?_eq_some there, linked⟩)

theorem mem_predecessors : other ∈ list.predecessors id ↔
    ∃ node, list.nodes[id]? = some node ∧ other ∈ node.previous := by
  rw [predecessors]
  cases found : list.get? id with
  | none =>
      have none : list.nodes[id]? = none := found
      simp [none]
  | some node =>
      have some : list.nodes[id]? = some node := found
      simp [some]

theorem Chained.of_mem_predecessors (chained : list.Chained) (running : id ∈ list.order)
    (member : other ∈ list.predecessors id) :
    ∃ resource, list.isHolder resource id = true ∧ Nearest.below? (list.isHolder resource) id = some other := by
  obtain ⟨node, found, previous⟩ := mem_predecessors.mp member
  obtain ⟨resource, links, linked, there⟩ := (mem_previous (chained.distinct found)).mp previous
  have held := Instruction.isSome_links? node resource
  rw [linked] at held
  refine ⟨resource, isHolder_iff.mpr ⟨running, node, found, List.contains_iff_mem.mp held.symm⟩, ?_⟩
  rw [chained.exact running found linked] at there
  exact Option.mem_toList.mp there

theorem Chained.mem_predecessors_of_below? (chained : list.Chained) (holds : list.isHolder resource id = true)
    (nearest : Nearest.below? (list.isHolder resource) id = some other) : other ∈ list.predecessors id := by
  obtain ⟨running, node, found, member⟩ := isHolder_iff.mp holds
  have held : (node.links? resource).isSome = true := by
    rw [Instruction.isSome_links?]
    exact List.contains_iff_mem.mpr member
  obtain ⟨links, linked⟩ := Option.isSome_iff_exists.mp held
  refine mem_predecessors.mpr ⟨node, found, (mem_previous (chained.distinct found)).mpr ⟨resource, links, linked, ?_⟩⟩
  rw [chained.exact running found linked]
  exact Option.mem_toList.mpr nearest

theorem predecessors_subset (list : InstructionList) (id : Nat) :
    list.predecessors id ⊆ list.nodes.flatMap Instruction.previous := by
  intro other member
  obtain ⟨node, found, previous⟩ := mem_predecessors.mp member
  exact List.mem_flatMap.mpr ⟨node, List.mem_of_getElem? found, previous⟩

theorem dependencies_closed (list : InstructionList) (id : Nat) :
    list.predecessors id ⊆ list.dependencies id ∧
      ∀ other ∈ list.dependencies id, list.predecessors other ⊆ list.dependencies id := by
  have distinct : (list.predecessors id).Nodup := by
    rw [predecessors]
    split
    · exact (Sorted.increasing_ofList _).nodup
    · exact List.nodup_nil
  have searching : Reach.Searching list.predecessors (list.nodes.flatMap Instruction.previous) []
      (list.predecessors id) :=
    ⟨distinct, predecessors_subset list id, by simp⟩
  have enough : (list.nodes.flatMap Instruction.previous).length ≤ ([] : List Nat).length + list.linkCount :=
    Nat.le_add_left _ _
  obtain ⟨all, closed⟩ := searching.complete (predecessors_subset list) enough
  refine ⟨?_, ?_⟩
  · intro other member
    rw [dependencies, Sorted.mem_ofList]
    exact all member
  · intro other member before follows
    rw [dependencies, Sorted.mem_ofList] at member ⊢
    exact closed other member before follows

theorem dependencies_induction {property : Nat → Prop}
    (inherits : ∀ node, property node → ∀ other ∈ list.predecessors node, property other)
    (begins : ∀ other ∈ list.predecessors id, property other) :
    ∀ other ∈ list.dependencies id, property other := by
  intro other member
  rw [dependencies, Sorted.mem_ofList] at member
  exact Reach.breadthFirst_induction _ inherits (by simpa using begins) other member

theorem dependencies_trans (needed : other ∈ list.dependencies id) : list.dependencies other ⊆ list.dependencies id :=
  have closed := (dependencies_closed list id).2
  dependencies_induction closed (closed other needed)

theorem Chained.mem_dependencies (chained : list.Chained) (holds : list.isHolder resource id = true)
    (lower : list.isHolder resource other = true) (below : other < id) : other ∈ list.dependencies id := by
  induction id using Nat.strong_induction_on with
  | _ id ih =>
      cases nearest : Nearest.below? (list.isHolder resource) id with
      | none =>
          rw [Nearest.below?_eq_none.mp nearest other below] at lower
          cases lower
      | some previous =>
          obtain ⟨under, there, between⟩ := Nearest.below?_eq_some.mp nearest
          have first := (dependencies_closed list id).1 (chained.mem_predecessors_of_below? holds nearest)
          by_cases same : other = previous
          · exact same ▸ first
          · have less : other < previous := by
              by_contra above
              rw [between other (by omega) below] at lower
              cases lower
            exact dependencies_trans first (ih previous under there less)

end TwoLane.InstructionList
