import TwoLane.Proofs.Execution.Rewriting

/-! # Conflicting instructions meet on a chain

An instruction that names a reference is on the chains of all references of the list that may overlap it. So two
instructions that name overlapping references share a chain, and come in the order of their numbers on it.
-/

namespace TwoLane.Execution

open InstructionList (Rewrite SameButLinks)

variable {list after : InstructionList} {names : List String} {node node' : Instruction} {id : Nat}

/-- Whether the running instructions touch all of some names that may overlap what they name, and name nothing
    else. -/
def Guarded (names : List String) (list : InstructionList) : Prop :=
  ∀ id ∈ list.order, ∀ node, list.nodes[id]? = some node → ∀ a ∈ node.operation.memoryAccesses,
    a.name ∈ names ∧ ∀ name ∈ names, Memory.mayOverlap a.name name = true → Resource.memory name ∈ node.resources

/-- Whether an instruction names nothing new and still touches all that may overlap what it names. -/
structure Reaches (node node' : Instruction) : Prop where
  names : ∀ a ∈ node'.operation.memoryAccesses, ∃ b ∈ node.operation.memoryAccesses, b.name = a.name
  touches : ∀ a ∈ node'.operation.memoryAccesses, ∀ name, Resource.memory name ∈ node.resources →
    Memory.mayOverlap a.name name = true → Resource.memory name ∈ node'.resources

theorem Reaches.of_same (operation : node'.operation = node.operation) (resources : node'.resources = node.resources) :
    Reaches node node' where
  names := fun a member => ⟨a, operation ▸ member, rfl⟩
  touches := fun _ _ _ member _ => resources ▸ member

theorem Reaches.refl (node : Instruction) : Reaches node node :=
  .of_same rfl rfl

theorem Reaches.congr {last : Instruction} (reaches : Reaches node node') (operation : last.operation = node'.operation)
    (resources : last.resources = node'.resources) : Reaches node last where
  names := operation ▸ reaches.names
  touches := by
    rw [operation, resources]
    exact reaches.touches

theorem Guarded.rewrite (guarded : Guarded names list) (running : id ∈ list.order)
    (found : list.nodes[id]? = some node) (rewrite : Rewrite list after id node') (reaches : Reaches node node') :
    Guarded names after := by
  intro j runs there thereFound a named
  rw [rewrite.order] at runs
  rcases rewrite.getElem? thereFound with ⟨rfl, same⟩ | ⟨_, before, beforeFound, same⟩
  · rw [Instruction.operation_congr same] at named
    rw [Instruction.resources_congr same]
    obtain ⟨b, own, equal⟩ := reaches.names a named
    obtain ⟨listed, meets⟩ := guarded j running node found b own
    rw [equal] at listed meets
    exact ⟨listed, fun name member overlaps => reaches.touches a named name (meets name member overlaps) overlaps⟩
  · rw [Instruction.operation_congr same] at named
    rw [Instruction.resources_congr same]
    exact guarded j runs before beforeFound a named

theorem Guarded.of_links (guarded : Guarded names list)
    (same : ∀ id : Nat, (after.nodes[id]?).map Instruction.withoutLinks = (list.nodes[id]?).map Instruction.withoutLinks)
    (order : after.order ⊆ list.order) : Guarded names after := by
  intro j runs there thereFound a named
  have view := same j
  rw [thereFound] at view
  obtain ⟨before, beforeFound, equal⟩ := Option.map_eq_some_iff.mp view.symm
  rw [← Instruction.operation_congr equal] at named
  rw [← Instruction.resources_congr equal]
  exact guarded j (order runs) before beforeFound a named

theorem guarded_ofNodes {block : Nat} {title : String} {nodes : List Instruction} (new : ∀ node ∈ nodes, node.IsNew) :
    Guarded (InstructionList.memoryNames nodes) (.ofNodes block title nodes) := by
  intro id _ node found a named
  have touches := InstructionList.complete_ofNodes new found
  have members : ∀ name, Resource.memory name ∈ node.resources ↔ name ∈ node.memory.map MemoryOccurrence.name := by
    intro name
    simp [Instruction.resources]
  have listed : a.name ∈ InstructionList.memoryNames nodes := by
    obtain ⟨old, oldIn, same⟩ := InstructionList.operation_ofNodes found
    refine Sorted.mem_ofList.mpr (List.mem_flatMap.mpr ⟨old, oldIn, ?_⟩)
    exact ((new old oldIn).memory.names a.name).mpr ⟨a, same ▸ named, rfl⟩
  refine ⟨listed, fun name member overlaps => (members name).mpr ((touches.names name).mpr ⟨member, a, named, ?_⟩)⟩
  rw [Memory.mayOverlap_comm]
  exact overlaps

/-! ## Conflicts -/

/-- Whether two operations access a common qubit, or one resets all qubits and the other one accesses a qubit, or they
    access references that may overlap. -/
def Conflict (a b : Operation) : Prop :=
  (∃ q ∈ a.qubitAccesses, ∃ q' ∈ b.qubitAccesses, q.name = q'.name) ∨
    (a.isGlobalReset = true ∧ b.qubitAccesses ≠ []) ∨ (b.isGlobalReset = true ∧ a.qubitAccesses ≠ []) ∨
    ∃ m ∈ a.memoryAccesses, ∃ m' ∈ b.memoryAccesses, Memory.mayOverlap m.name m'.name = true

variable {x y : Nat} {a b : Instruction}

theorem shared_of_conflict (ordered : Ordered list) (guarded : Guarded names list) (xRuns : x ∈ list.order)
    (yRuns : y ∈ list.order) (xFound : list.nodes[x]? = some a) (yFound : list.nodes[y]? = some b)
    (conflict : Conflict a.operation b.operation) :
    ∃ resource, list.holdsAt resource x = true ∧ list.holdsAt resource y = true := by
  have xCovers := ordered.covers xRuns xFound
  have yCovers := ordered.covers yRuns yFound
  rcases conflict with ⟨q, qIn, q', qIn', same⟩ | ⟨global, accesses⟩ | ⟨global, accesses⟩ | ⟨m, mIn, m', mIn', overlaps⟩
  · exact ⟨.qubit q.name, holdsAt_of_mem xFound (xCovers.touches _ (qubit_mem_touched.mpr ⟨q, qIn, rfl⟩)),
      holdsAt_of_mem yFound (yCovers.touches _ (qubit_mem_touched.mpr ⟨q', qIn', same.symm⟩))⟩
  · obtain ⟨q, qIn⟩ := List.exists_mem_of_ne_nil _ accesses
    have own := yCovers.touches _ (qubit_mem_touched.mpr ⟨q, qIn, rfl⟩)
    have holder := InstructionList.isHolder_iff.mpr ⟨yRuns, b, yFound, own⟩
    exact ⟨.qubit q.name, holdsAt_of_mem xFound (xCovers.resets global _ y holder), holdsAt_of_mem yFound own⟩
  · obtain ⟨q, qIn⟩ := List.exists_mem_of_ne_nil _ accesses
    have own := xCovers.touches _ (qubit_mem_touched.mpr ⟨q, qIn, rfl⟩)
    have holder := InstructionList.isHolder_iff.mpr ⟨xRuns, a, xFound, own⟩
    exact ⟨.qubit q.name, holdsAt_of_mem xFound own, holdsAt_of_mem yFound (yCovers.resets global _ x holder)⟩
  · have listed := (guarded y yRuns b yFound m' mIn').1
    exact ⟨.memory m'.name, holdsAt_of_mem xFound ((guarded x xRuns a xFound m mIn).2 m'.name listed overlaps),
      holdsAt_of_mem yFound (yCovers.touches _ (memory_mem_touched.mpr ⟨m', mIn', rfl⟩))⟩

theorem idxOf_lt_of_conflict (ordered : Ordered list) (guarded : Guarded names list) (xRuns : x ∈ list.order)
    (yRuns : y ∈ list.order) (xFound : list.nodes[x]? = some a) (yFound : list.nodes[y]? = some b)
    (conflict : Conflict a.operation b.operation) (differ : x ≠ y) :
    list.order.idxOf x < list.order.idxOf y ↔ x < y := by
  obtain ⟨resource, xHolds, yHolds⟩ := shared_of_conflict ordered guarded xRuns yRuns xFound yFound conflict
  have positions := List.pairwise_iff_getElem.mp ordered.orderly
  have before : ∀ {u v : Nat}, u ∈ list.order → v ∈ list.order → list.holdsAt resource u = true →
      list.holdsAt resource v = true → list.order.idxOf u < list.order.idxOf v → u < v := by
    intro u v uRuns vRuns uHolds vHolds less
    have uInside := List.idxOf_lt_length_of_mem uRuns
    have vInside := List.idxOf_lt_length_of_mem vRuns
    have := positions _ _ uInside vInside less resource
    rw [List.getElem_idxOf, List.getElem_idxOf] at this
    exact this uHolds vHolds
  refine ⟨before xRuns yRuns xHolds yHolds, fun lower => ?_⟩
  by_contra above
  rcases Nat.lt_or_eq_of_le (Nat.le_of_not_lt above) with less | same
  · have := before yRuns xRuns yHolds xHolds less
    omega
  · have equal := congrArg (fun i : Nat => list.order[i]?) same
    simp only [List.getElem?_idxOf, yRuns, xRuns] at equal
    exact differ (Option.some.inj equal).symm

end TwoLane.Execution
