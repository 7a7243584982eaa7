import TwoLane.Proofs.Execution.Facts
import TwoLane.Proofs.Liveness.Judged

/-! # New lists

The instructions of a new list run in the order of their numbers, each is on the chains of all that its operation
touches, and nothing is known about any of them yet.
-/

namespace TwoLane.Execution

open InstructionList (ofNodes memoryNames qubitNames)

variable {σ : Type} {device : Device σ} {visit block id : Nat} {title : String} {nodes : List Instruction}
  {list : InstructionList} {node : Instruction} {state : State σ} {successors : List Nat}

/-! ## Occurrences -/

/-- The qubits of an instruction in a new list are those that its operation touches in the list, and nothing is known
    about them. -/
theorem qubits_ofNodes (new : ∀ node ∈ nodes, node.IsNew) (found : (ofNodes block title nodes).nodes[id]? = some node) :
    ∃ occurrences, Instruction.RecordsQubits (Instruction.qubitsTouched (qubitNames nodes) node.operation) occurrences ∧
      node.qubits.map (fun o => (o.name, o.use, o.before, o.after)) =
        occurrences.map (fun o => (o.name, o.use, o.before, o.after)) := by
  obtain ⟨old, there, same⟩ := InstructionList.withoutLinks_ofNodes found
  have operation := congrArg Instruction.operation same
  have qubits := congrArg
    (fun n : Instruction => n.qubits.map (fun o => (o.name, o.use, o.before, o.after))) same
  simp only [Instruction.withoutLinks, List.map_map, Function.comp_def] at qubits
  have operation' : node.operation = old.operation := operation
  rw [operation']
  exact ⟨_, Instruction.recordsQubits_withImplied (new old (List.mem_of_getElem? there)).qubits, qubits⟩

theorem qubit_mem_ofNodes (new : ∀ node ∈ nodes, node.IsNew) (found : (ofNodes block title nodes).nodes[id]? = some node)
    {q : String} : Resource.qubit q ∈ node.resources ↔
      ∃ a ∈ Instruction.qubitsTouched (qubitNames nodes) node.operation, a.name = q := by
  obtain ⟨occurrences, records, same⟩ := qubits_ofNodes new found
  have names : node.qubits.map QubitOccurrence.name = occurrences.map QubitOccurrence.name := by
    simpa [Function.comp_def] using congrArg (List.map Prod.fst) same
  rw [← records.names, ← names]
  simp [Instruction.resources]

theorem mem_qubitNames (new : ∀ node ∈ nodes, node.IsNew) (found : (ofNodes block title nodes).nodes[id]? = some node)
    {q : String} (member : Resource.qubit q ∈ node.resources) : q ∈ qubitNames nodes := by
  obtain ⟨a, touched, rfl⟩ := (qubit_mem_ofNodes new found).mp member
  rcases List.mem_append.mp touched with own | implied
  · obtain ⟨old, oldIn, operation⟩ := InstructionList.operation_ofNodes found
    refine Sorted.mem_ofList.mpr (List.mem_flatMap.mpr ⟨old, oldIn, ?_⟩)
    exact ((new old oldIn).qubits.names a.name).mpr ⟨a, operation ▸ own, rfl⟩
  · split at implied
    · obtain ⟨q, listed, rfl⟩ := List.mem_map.mp implied
      exact listed
    · cases implied

theorem states_ofNodes (new : ∀ node ∈ nodes, node.IsNew) (found : (ofNodes block title nodes).nodes[id]? = some node) :
    ∀ o ∈ node.qubits, o.before = none ∧ o.after = none := by
  intro o member
  obtain ⟨occurrences, records, same⟩ := qubits_ofNodes new found
  have there : (o.name, o.use, o.before, o.after) ∈ node.qubits.map (fun o => (o.name, o.use, o.before, o.after)) :=
    List.mem_map_of_mem member
  rw [same] at there
  obtain ⟨o', own, eq⟩ := List.mem_map.mp there
  obtain ⟨before, after, _⟩ := records.blank o' own
  exact ⟨(congrArg (fun t => t.2.2.1) eq).symm.trans before, (congrArg (fun t => t.2.2.2) eq).symm.trans after⟩

theorem covers_ofNodes (new : ∀ node ∈ nodes, node.IsNew) (running : id ∈ (ofNodes block title nodes).order)
    (found : (ofNodes block title nodes).nodes[id]? = some node) : Covers (ofNodes block title nodes) node := by
  obtain ⟨occurrences, records, same⟩ := qubits_ofNodes new found
  have touches := InstructionList.complete_ofNodes new found
  obtain ⟨old, oldIn, operation⟩ := InstructionList.operation_ofNodes found
  refine ⟨?_, ?_, ?_, ?_⟩
  · intro resource touched
    cases resource with
    | memory name =>
        obtain ⟨a, own, rfl⟩ := memory_mem_touched.mp touched
        have listed : a.name ∈ memoryNames nodes := by
          refine Sorted.mem_ofList.mpr (List.mem_flatMap.mpr ⟨old, oldIn, ?_⟩)
          exact ((new old oldIn).memory.names a.name).mpr ⟨a, operation ▸ own, rfl⟩
        have member := (touches.names a.name).mpr ⟨listed, a, own, Memory.mayOverlap_self _⟩
        simpa [Instruction.resources] using member
    | qubit q =>
        obtain ⟨a, own, rfl⟩ := qubit_mem_touched.mp touched
        exact (qubit_mem_ofNodes new found).mpr ⟨a, List.mem_append_left _ own, rfl⟩
  · exact Liveness.assigns_ofNodes new node (List.mem_filterMap.mpr ⟨id, running, found⟩)
  · intro plain o member
    have there : (o.name, o.use, o.before, o.after) ∈ node.qubits.map (fun o => (o.name, o.use, o.before, o.after)) :=
      List.mem_map_of_mem member
    rw [same] at there
    obtain ⟨o', own, eq⟩ := List.mem_map.mp there
    obtain ⟨a, touched, name, use⟩ := records.use o' own
    rw [Instruction.qubitsTouched, if_neg (by simp [plain]), List.append_nil] at touched
    exact ⟨a, touched, name.trans (congrArg Prod.fst eq), use.trans (congrArg (fun t => t.2.1) eq)⟩
  · intro global q other holder
    obtain ⟨_, _, otherFound, member⟩ := InstructionList.isHolder_iff.mp holder
    refine (qubit_mem_ofNodes new found).mpr ⟨⟨q, .singleGate⟩, List.mem_append_right _ ?_, rfl⟩
    rw [if_pos global]
    exact List.mem_map_of_mem (mem_qubitNames new otherFound member)

/-! ## The list -/

theorem ordered_ofNodes (new : ∀ node ∈ nodes, node.IsNew) : Ordered (ofNodes block title nodes) where
  chained := InstructionList.chained_ofNodes new
  orderly := List.pairwise_lt_range.imp (fun less _ _ _ => less)
  covers := covers_ofNodes new

/-- Nothing is known in a new list, so all of it is true. -/
theorem told_ofNodes (new : ∀ node ∈ nodes, node.IsNew) : Told device visit (ofNodes block title nodes) state := by
  intro id _ node found
  have values := InstructionList.values_ofNodes new found
  have blank := states_ofNodes new found
  refine ⟨?_, ?_, ?_, ?_⟩
  · intro o member value known
    rw [values o member] at known
    cases known
  · intro o member value known
    rw [values o member] at known
    cases known
  · intro o member known there
    rw [(blank o member).2] at there
    cases there
  · intro _ o member known there
    rw [(blank o member).1] at there
    cases there

/-! ## Successors -/

theorem Ordered.withSuccessors (ordered : Ordered list) (successors : List Nat) :
    Ordered { list with successors := successors } where
  chained := ⟨ordered.chained.numbered, ordered.chained.order, ordered.chained.inside, ordered.chained.distinct,
    ordered.chained.exact⟩
  orderly := ordered.orderly
  covers := fun running found =>
    have covers := ordered.covers running found
    ⟨covers.touches, covers.writes, covers.qubits, covers.resets⟩

end TwoLane.Execution
