import TwoLane.Proofs.Execution.Folding.Operands

/-! # What folding leaves of an instruction

A folded instruction notes what it noted before or what follows from what is known in front of it, and it goes only off
chains on which it left what it found. So its facts stay founded. Where all is noted a folded instruction is settled:
folding it once more leaves it.
-/

namespace TwoLane.Execution

open Indexed (writtenNames)
open InstructionList (Rewrite)

variable {whole : Prop} {outlook : Outlook} {list : InstructionList} {id : Nat} {node node' : Instruction}
  {isEntry : Bool}

/-! ## Occurrences -/

/-- Whether each reference that an instruction touches may overlap one that its operation names, and each reference
    that counts as written one that the operation writes. -/
structure Fits (node : Instruction) : Prop where
  named : ∀ o ∈ node.memory, ∃ a ∈ node.operation.memoryAccesses, Memory.mayOverlap o.name a.name = true
  written : ∀ o ∈ node.memory, o.isAssignment = true →
    ∃ name ∈ writtenNames node.operation, Memory.mayOverlap o.name name = true

theorem exists_occurrence {o' : MemoryOccurrence}
    (same : node'.memory.map (fun o => (o.name, o.use)) = node.memory.map (fun o => (o.name, o.use)))
    (member : o' ∈ node'.memory) : ∃ o ∈ node.memory, o.name = o'.name ∧ o.use = o'.use := by
  have view : (o'.name, o'.use) ∈ node'.memory.map (fun o => (o.name, o.use)) := List.mem_map_of_mem member
  rw [same] at view
  obtain ⟨o, there, equal⟩ := List.mem_map.mp view
  exact ⟨o, there, Prod.mk.inj equal⟩

theorem Fits.congr (fits : Fits node) (operation : node'.operation = node.operation)
    (memory : node'.memory.map (fun o => (o.name, o.use)) = node.memory.map (fun o => (o.name, o.use))) :
    Fits node' := by
  refine ⟨fun o' member => ?_, fun o' member writes => ?_⟩
  · obtain ⟨o, there, name, _⟩ := exists_occurrence memory member
    rw [operation, ← name]
    exact fits.named o there
  · obtain ⟨o, there, name, use⟩ := exists_occurrence memory member
    rw [operation, ← name]
    exact fits.written o there (by rwa [MemoryOccurrence.isAssignment, use])

/-- Whether an instruction that takes the place of another one is known to write the same, notes what that one noted or
    what follows in an outlook, and lacks only what that one left as it found it. -/
structure Informs (outlook : Outlook) (node node' : Instruction) : Prop where
  written : outlook.written node'.operation = outlook.written node.operation
  reset : node'.operation.isReset = node.operation.isReset
  memory : ∀ o' ∈ node'.memory, ∃ o ∈ node.memory, o.name = o'.name ∧ o.use = o'.use ∧
    (o'.value = o.value ∨ o'.value = outlook.value node.operation o)
  qubits : ∀ o' ∈ node'.qubits, ∃ o ∈ node.qubits, o.name = o'.name ∧
    outlook.state node'.operation o' = outlook.state node.operation o ∧
      (o'.after = o.after ∨ o'.after = outlook.state node.operation o) ∧
        (o'.before = o.before ∨ o'.before = o.before.or (outlook.qubit o.name))
  memoryGone : ∀ o ∈ node.memory, Resource.memory o.name ∉ node'.resources → o.isAssignment = false
  qubitGone : ∀ o ∈ node.qubits, Resource.qubit o.name ∉ node'.resources →
    outlook.state node.operation o = outlook.qubit o.name

theorem Informs.leaves (informs : Informs outlook node node') (founded : Founded whole outlook node) :
    Leaves whole outlook node node' where
  memory := by
    intro o' member
    obtain ⟨o, there, name, _, either⟩ := informs.memory o' member
    exact ⟨o, there, name, ((founded.memory o there).between either).1⟩
  qubits := by
    intro o' member
    obtain ⟨o, there, name, _, either, _⟩ := informs.qubits o' member
    exact ⟨o, there, name, ((founded.after o there).between either).1⟩
  memoryGone := by
    intro o member gone
    have backed := founded.memory o member
    rwa [Outlook.value, if_neg (by simp [informs.memoryGone o member gone])] at backed
  qubitGone := fun o member gone => informs.qubitGone o member gone ▸ founded.after o member

theorem Informs.founded (informs : Informs outlook node node') (founded : Founded whole outlook node) :
    Founded whole outlook node' where
  memory := by
    intro o' member
    obtain ⟨o, there, name, use, either⟩ := informs.memory o' member
    have backed := ((founded.memory o there).between either).2
    rwa [Outlook.value, MemoryOccurrence.isAssignment, name, use, ← informs.written] at backed
  after := by
    intro o' member
    obtain ⟨o, there, _, state, either, _⟩ := informs.qubits o' member
    rw [state]
    exact ((founded.after o there).between either).2
  before := by
    intro plain o' member
    obtain ⟨o, there, name, _, _, either⟩ := informs.qubits o' member
    have backed := founded.before (informs.reset ▸ plain) o there
    rw [backed.noted_or] at either
    exact name ▸ (backed.between either).2
  reset := by
    intro w o' member state known
    obtain ⟨o, there, name, _, _, either⟩ := informs.qubits o' member
    have noted := founded.reset w o there state (name ▸ known)
    rcases either with same | same
    · rw [same, noted]
    · rw [same, noted, Option.some_or]

/-! ## Settled instructions -/

/-- Whether folding leaves an instruction in front of which some things are known, apart from what it may note. A known
    result that does not equal itself is set again and again, which changes nothing. -/
structure Settled (outlook : Outlook) (node : Instruction) : Prop where
  classical : FoldRule.ofCategory node.category = .classical → ∀ opcode operands,
    node.operation = .classical opcode operands → (outlook.reduced node.operation != node.operation) = true →
      node.operation = outlook.reduced node.operation ∧ node.text = node.operation.text ∧
        Folding.unnamed node (Folding.operandsOf node.operation) = []
  gate : FoldRule.ofCategory node.category = .hybrid → ∀ gate params qubits, node.operation = .gate gate params qubits →
    ∀ name, Operand.address name ∈ params → outlook.memory name = none
  measure : FoldRule.ofCategory node.category = .hybrid → ∀ qubit target,
    node.operation = .measure qubit (some target) → (outlook.qubit qubit).bind QubitState.outcome? = none

theorem settled_of_unfolded
    (classical : FoldRule.ofCategory node.category = .classical → ∀ opcode operands,
      node.operation ≠ .classical opcode operands)
    (gate : FoldRule.ofCategory node.category = .hybrid → ∀ gate params qubits,
      node.operation ≠ .gate gate params qubits)
    (measure : FoldRule.ofCategory node.category = .hybrid → ∀ qubit target,
      node.operation ≠ .measure qubit (some target)) : Settled outlook node where
  classical := fun rule opcode operands same => absurd same (classical rule opcode operands)
  gate := fun rule _ params qubits same => absurd same (gate rule _ params qubits)
  measure := fun rule qubit target same => absurd same (measure rule qubit target)

theorem settled_classical {opcode : String} {operands : List Operand}
    (operation : node.operation = .classical opcode operands)
    (still : (outlook.reduced node.operation != node.operation) = true →
      node.operation = outlook.reduced node.operation ∧ node.text = node.operation.text ∧
        Folding.unnamed node (Folding.operandsOf node.operation) = []) : Settled outlook node where
  classical := fun _ _ _ _ => still
  gate := fun _ _ _ _ same => by
    rw [operation] at same
    cases same
  measure := fun _ _ _ same => by
    rw [operation] at same
    cases same

theorem settled_gate {gate : String} {params : List Operand} {qubits : List String}
    (operation : node.operation = .gate gate params qubits)
    (unknown : ∀ name, Operand.address name ∈ params → outlook.memory name = none) : Settled outlook node where
  classical := fun _ _ _ same => by
    rw [operation] at same
    cases same
  gate := fun _ _ _ _ same => by
    cases operation.symm.trans same
    exact unknown
  measure := fun _ _ _ same => by
    rw [operation] at same
    cases same

theorem settled_measurement {qubit target : String} (operation : node.operation = .measure qubit (some target))
    (uncertain : (outlook.qubit qubit).bind QubitState.outcome? = none) : Settled outlook node where
  classical := fun _ _ _ same => by
    rw [operation] at same
    cases same
  gate := fun _ _ _ _ same => by
    rw [operation] at same
    cases same
  measure := fun _ _ _ same => by
    cases operation.symm.trans same
    exact uncertain

/-- What folding makes of an instruction. -/
structure Folded (whole : Prop) (outlook : Outlook) (node node' : Instruction) : Prop where
  leaves : Leaves whole outlook node node'
  founded : Founded whole outlook node'
  fits : Fits node'
  settled : whole → Settled outlook node'

theorem Informs.folded (informs : Informs outlook node node') (founded : Founded whole outlook node) (fits : Fits node')
    (settled : Settled outlook node') : Folded whole outlook node node' :=
  ⟨informs.leaves founded, informs.founded founded, fits, fun _ => settled⟩

theorem folded_refl (founded : Founded whole outlook node) (fits : Fits node) (settled : Settled outlook node) :
    Folded whole outlook node node :=
  ⟨.refl node, founded, fits, fun _ => settled⟩

theorem mem_unnamed {operands : List Operand} {name : String} : name ∈ Folding.unnamed node operands ↔
    (∃ o ∈ node.memory, o.name = name) ∧
      ∀ other ∈ operands.flatMap Operand.addresses, Memory.mayOverlap other name = false := by
  rw [Folding.unnamed, List.mem_filter, List.mem_map]
  refine and_congr_right (fun _ => ?_)
  simp only [Bool.not_eq_true', List.any_eq_false, Bool.not_eq_true]

theorem overlaps_of_mem_renewed {operation : Operation} {operands : List Operand} {o : MemoryOccurrence}
    (names : node'.memory.map MemoryOccurrence.name = node.memory.map MemoryOccurrence.name)
    (member : o ∈ (renewed node' operation (Folding.unnamed node operands)).memory) :
    ∃ other ∈ operands.flatMap Operand.addresses, Memory.mayOverlap o.name other = true := by
  obtain ⟨there, stays⟩ := List.mem_filter.mp member
  have own : ∃ first ∈ node.memory, first.name = o.name := by
    have listed : o.name ∈ node'.memory.map MemoryOccurrence.name := List.mem_map_of_mem there
    rw [names] at listed
    exact List.mem_map.mp listed
  by_contra none
  refine absurd (mem_unnamed.mpr ⟨own, fun other named => ?_⟩) (by simpa using stays)
  cases overlaps : Memory.mayOverlap other o.name with
  | false => rfl
  | true => exact absurd ⟨other, named, Memory.mayOverlap_comm _ _ ▸ overlaps⟩ none

/-- Nothing is left to take off the chains of a renewed instruction. -/
theorem unnamed_renewed {operation : Operation} {operands : List Operand}
    (names : node'.memory.map MemoryOccurrence.name = node.memory.map MemoryOccurrence.name) :
    Folding.unnamed (renewed node' operation (Folding.unnamed node operands)) operands = [] := by
  refine List.eq_nil_iff_forall_not_mem.mpr (fun name member => ?_)
  obtain ⟨⟨o, there, rfl⟩, apart⟩ := mem_unnamed.mp member
  obtain ⟨other, named, overlaps⟩ := overlaps_of_mem_renewed names there
  rw [Memory.mayOverlap_comm, apart other named] at overlaps
  cases overlaps

/-! ## Classical instructions -/

section Classical

variable {opcode : String} {operands : List Operand}

/-- A noted value is the old one or the one that follows. -/
theorem note_either (covers : Covers list node) (distinct : node.resources.Nodup)
    (operation : node.operation = .classical opcode operands) {o : MemoryOccurrence} (member : o ∈ node.memory) :
    (note (outlook.written node.operation) o).value = o.value ∨
      (note (outlook.written node.operation) o).value = outlook.value node.operation o := by
  obtain ⟨_, _, _, values⟩ := note_spec (outlook.written node.operation) o
  refine values.imp_right ?_
  rintro ⟨w, own, name, same⟩
  rw [operation] at own
  have writes : o.isAssignment = true := by
    by_contra reads
    refine covers.unwritten distinct member (by simpa using reads) ?_
    rw [← name, operation, Indexed.writtenNames_classical]
    exact Evaluation.name_mem_of_writes own
  rw [Outlook.value, if_pos writes, ← name, ← same, operation]
  exact (valueIn_of_mem_writes own).symm

theorem names_noteWritten (written : List Written) (node : Instruction) :
    (Folding.noteWritten written node).memory.map (fun o => (o.name, o.use)) =
      node.memory.map (fun o => (o.name, o.use)) := by
  rw [noteWritten_eq, List.map_map]
  refine List.map_congr_left (fun o _ => ?_)
  obtain ⟨name, use, _⟩ := note_spec written o
  exact Prod.ext name use

theorem informs_noteWritten (covers : Covers list node) (distinct : node.resources.Nodup)
    (operation : node.operation = .classical opcode operands) :
    Informs outlook node (Folding.noteWritten (outlook.written node.operation) node) := by
  have resources : (Folding.noteWritten (outlook.written node.operation) node).resources = node.resources := by
    rw [← Instruction.resources_shape, shape_noteWritten, Instruction.resources_shape]
  rw [noteWritten_eq] at resources ⊢
  refine ⟨rfl, rfl, ?_, fun o member => ⟨o, member, rfl, rfl, .inl rfl, .inl rfl⟩, ?_, ?_⟩
  · intro o' member
    obtain ⟨o, there, rfl⟩ := List.mem_map.mp member
    obtain ⟨name, use, _⟩ := note_spec (outlook.written node.operation) o
    exact ⟨o, there, name.symm, use.symm, note_either covers distinct operation there⟩
  · intro o member gone
    exact absurd (resources ▸ memory_mem_resources.mpr ⟨o, member, rfl⟩) gone
  · intro o member gone
    exact absurd (resources ▸ qubit_mem_resources.mpr ⟨o, member, rfl⟩) gone

/-- An instruction whose operation is renewed still notes the same, if the new operation writes the same and does the
    same to qubits. -/
theorem Informs.renewed (informs : Informs outlook node node') (fits : Fits node) {operation : Operation}
    {operands : List Operand} (own : node'.memory.map MemoryOccurrence.name = node.memory.map MemoryOccurrence.name)
    (written : outlook.written operation = outlook.written node.operation)
    (reset : operation.isReset = node.operation.isReset)
    (state : ∀ o : QubitOccurrence, outlook.state operation o = outlook.state node'.operation o)
    (stays : ∀ name ∈ writtenNames node.operation, name ∈ operands.flatMap Operand.addresses) :
    Informs outlook node (renewed node' operation (Folding.unnamed node operands)) where
  written := written
  reset := reset
  memory := fun o' member => informs.memory o' (List.mem_filter.mp member).1
  qubits := by
    intro o' member
    obtain ⟨o, there, name, same, rest⟩ := informs.qubits o' member
    exact ⟨o, there, name, (state o').trans same, rest⟩
  memoryGone := by
    intro o member gone
    by_contra writes
    obtain ⟨name, isWritten, overlaps⟩ := fits.written o member (by simpa using writes)
    have listed : o.name ∈ node'.memory.map MemoryOccurrence.name := own ▸ List.mem_map_of_mem member
    obtain ⟨o', there, same⟩ := List.mem_map.mp listed
    refine gone (memory_mem_resources.mpr ⟨o', List.mem_filter.mpr ⟨there, ?_⟩, same⟩)
    rw [Bool.not_eq_true', ← Bool.not_eq_true, List.contains_iff_mem, same]
    intro goes
    have apart := (mem_unnamed.mp goes).2 name (stays name isWritten)
    rw [Memory.mayOverlap_comm, overlaps] at apart
    cases apart
  qubitGone := by
    intro o member gone
    refine informs.qubitGone o member (fun held => gone ?_)
    obtain ⟨o', there, same⟩ := qubit_mem_resources.mp held
    exact qubit_mem_resources.mpr ⟨o', there, same⟩

theorem named_of_written {opcode : String} {operands : List Operand} {name : String}
    (written : name ∈ writtenNames (.classical opcode operands)) : name ∈ operands.flatMap Operand.addresses :=
  memory_mem_touched_classical.mp (touched_of_written written)

theorem Fits.renewed (fits : Fits node) {operation : Operation} {operands : List Operand}
    (own : node'.memory.map (fun o => (o.name, o.use)) = node.memory.map (fun o => (o.name, o.use)))
    (named : ∀ name ∈ operands.flatMap Operand.addresses, Resource.memory name ∈ touched operation)
    (written : writtenNames node.operation ⊆ writtenNames operation) :
    Fits (renewed node' operation (Folding.unnamed node operands)) where
  named := by
    intro o member
    have names : node'.memory.map MemoryOccurrence.name = node.memory.map MemoryOccurrence.name := by
      simpa [Function.comp_def] using congrArg (List.map Prod.fst) own
    obtain ⟨other, isNamed, overlaps⟩ := overlaps_of_mem_renewed names member
    obtain ⟨a, there, rfl⟩ := memory_mem_touched.mp (named other isNamed)
    exact ⟨a, there, overlaps⟩
  written := by
    intro o member writes
    obtain ⟨first, there, name, use⟩ := exists_occurrence own (List.mem_filter.mp member).1
    obtain ⟨target, isWritten, overlaps⟩ := fits.written first there (by rwa [MemoryOccurrence.isAssignment, use])
    exact ⟨target, written isWritten, name ▸ overlaps⟩

theorem folded_classical (founded : Founded whole outlook node) (fits : Fits node) (covers : Covers list node)
    (distinct : node.resources.Nodup) (operation : node.operation = .classical opcode operands) :
    Folded whole outlook node
      (if outlook.reduced node.operation != node.operation then
        renewed (Folding.noteWritten (outlook.written node.operation) node) (outlook.reduced node.operation)
          (Folding.unnamed node (Folding.operandsOf (outlook.reduced node.operation)))
      else Folding.noteWritten (outlook.written node.operation) node) := by
  have informs : Informs outlook node (Folding.noteWritten (outlook.written node.operation) node) :=
    informs_noteWritten covers distinct operation
  have own := names_noteWritten (outlook.written node.operation) node
  have names : (Folding.noteWritten (outlook.written node.operation) node).memory.map MemoryOccurrence.name =
      node.memory.map MemoryOccurrence.name := by
    simpa [Function.comp_def] using congrArg (List.map Prod.fst) own
  have same : (Folding.noteWritten (outlook.written node.operation) node).operation = node.operation := by
    rw [noteWritten_eq]
  have category : (Folding.noteWritten (outlook.written node.operation) node).category = node.category := by
    rw [noteWritten_eq]
  obtain ⟨opcode', operands', reduced, writes⟩ := Outlook.reduced_spec outlook opcode operands
  rw [← operation] at reduced writes
  have kept : Informs outlook node
      (renewed (Folding.noteWritten (outlook.written node.operation) node) (.classical opcode' operands')
        (Folding.unnamed node operands')) := by
    refine informs.renewed fits names ?_ (by rw [operation]; rfl) (fun o => by rw [same, operation]; rfl) ?_
    · rw [← reduced]
      exact Outlook.written_reduced _
    · rw [← writes]
      exact fun name => named_of_written
  split
  · rw [reduced]
    refine kept.folded founded (fits.renewed own (fun name => memory_mem_touched_classical.mpr) ?_)
      (settled_classical rfl (fun _ => ⟨?_, rfl, unnamed_renewed names⟩))
    · rw [writes]
      exact List.Subset.refl _
    · change Operation.classical opcode' operands' = outlook.reduced (.classical opcode' operands')
      rw [← reduced, Outlook.reduced_idem]
  · next unchanged =>
    refine informs.folded founded (fits.congr same own) (settled_classical (same.trans operation) (fun changed => ?_))
    rw [same] at changed
    exact absurd changed unchanged

end Classical

/-! ## Gates -/

section Gates

variable {gate : String} {params : List Operand} {qubits : List String}

theorem substituted_eq_false :
    (params.zip (params.map outlook.substitute)).any
        (fun pair => pair.1.address?.isSome && pair.2.literal?.isSome) = false ↔
      ∀ name, Operand.address name ∈ params → outlook.memory name = none := by
  have pairs : (params.zip (params.map outlook.substitute)).any
      (fun pair => pair.1.address?.isSome && pair.2.literal?.isSome) =
        params.any (fun p => p.address?.isSome && (outlook.substitute p).literal?.isSome) := by
    induction params with
    | nil => rfl
    | cons first rest ih => exact congrArg (_ || ·) ih
  rw [pairs, List.any_eq_false]
  constructor
  · intro none name member
    have here := none _ member
    cases known : outlook.memory name with
    | none => rfl
    | some value => simp [Operand.address?, Operand.literal?, Outlook.substitute, known] at here
  · intro none p member
    cases p with
    | address name => simp [Outlook.substitute, none name member, Operand.literal?]
    | literal _ => simp [Operand.address?]
    | expression _ _ => simp [Operand.address?]

theorem memory_of_substitute {operand : Operand} {name : String}
    (same : outlook.substitute operand = .address name) : outlook.memory name = none := by
  cases operand with
  | address other =>
      rw [Outlook.substitute] at same
      cases known : outlook.memory other with
      | none =>
          rw [known] at same
          cases same
          exact known
      | some value =>
          rw [known] at same
          cases same
  | literal _ => cases same
  | expression _ _ => cases same

theorem Informs.settled (informs : Informs outlook node node') : Informs outlook node (settled node') := by
  rw [Execution.settled]
  split
  · exact ⟨informs.written, informs.reset, informs.memory, informs.qubits, informs.memoryGone, informs.qubitGone⟩
  · exact informs

theorem Informs.refl (node : Instruction) : Informs outlook node node where
  written := rfl
  reset := rfl
  memory := fun o member => ⟨o, member, rfl, rfl, .inl rfl⟩
  qubits := fun o member => ⟨o, member, rfl, rfl, .inl rfl, .inl rfl⟩
  memoryGone := fun o member gone => absurd (memory_mem_resources.mpr ⟨o, member, rfl⟩) gone
  qubitGone := fun o member gone => absurd (qubit_mem_resources.mpr ⟨o, member, rfl⟩) gone

theorem folded_gate (founded : Founded whole outlook node) (fits : Fits node)
    (operation : node.operation = .gate gate params qubits) :
    Folded whole outlook node
      (if (params.zip (params.map outlook.substitute)).any
          (fun pair => pair.1.address?.isSome && pair.2.literal?.isSome) then
        settled (renewed node (.gate gate (params.map outlook.substitute) qubits)
          (Folding.unnamed node (params.map outlook.substitute)))
      else node) := by
  split
  · have informs : Informs outlook node (renewed node (.gate gate (params.map outlook.substitute) qubits)
        (Folding.unnamed node (params.map outlook.substitute))) := by
      refine (Informs.refl node).renewed fits rfl ?_ ?_ (fun o => ?_) ?_
      · rw [operation]
        rfl
      · rw [operation]
        rfl
      · rw [operation, Outlook.state, Outlook.state]
        cases o.use <;> rfl
      · rw [operation, writtenNames_gate]
        exact fun name member => (List.not_mem_nil member).elim
    have fits' : Fits (renewed node (.gate gate (params.map outlook.substitute) qubits)
        (Folding.unnamed node (params.map outlook.substitute))) := by
      refine fits.renewed rfl (fun name => memory_mem_touched_gate.mpr) ?_
      rw [operation, writtenNames_gate]
      exact List.nil_subset _
    obtain ⟨_, same, _, memory, _⟩ := settled_spec (renewed node (.gate gate (params.map outlook.substitute) qubits)
      (Folding.unnamed node (params.map outlook.substitute)))
    refine informs.settled.folded founded (fits'.congr same (by rw [memory]))
      (settled_gate same (fun name member => ?_))
    obtain ⟨operand, _, substituted⟩ := List.mem_map.mp member
    exact memory_of_substitute substituted
  · next unchanged =>
    refine folded_refl founded fits (settled_gate operation ?_)
    exact substituted_eq_false.mp (by simpa using unchanged)

end Gates

/-! ## Measurements -/

section Measurements

variable {qubit target : String}

/-- The state that a measurement notes, or else looks up, is what is known in front of it. -/
theorem measured_eq (founded : Founded whole outlook node) (covers : Covers list node)
    (operation : node.operation = .measure qubit (some target)) :
    ((node.qubit? qubit).bind QubitOccurrence.before).or (outlook.qubit qubit) = outlook.qubit qubit := by
  obtain ⟨o, occurs⟩ := Instruction.exists_qubit (covers.measured_mem operation)
  have backed := founded.before (by rw [operation]; rfl) o (List.mem_of_find?_eq_some occurs)
  rw [Instruction.qubit?_name occurs] at backed
  rw [occurs, Option.bind_some]
  exact backed.noted_or

theorem informs_unmeasured (covers : Covers list node) (distinct : node.resources.Nodup)
    (operation : node.operation = .measure qubit (some target)) {outcome : Bool}
    (certain : (outlook.qubit qubit).bind QubitState.outcome? = some outcome) :
    Informs outlook node (unmeasured node qubit target (.ofBool outcome)) := by
  have written : outlook.written node.operation = [⟨target, some (.ofBool outcome)⟩] := by
    rw [operation, Outlook.written, certain]
    rfl
  have only : ∀ o ∈ node.qubits, o.name = qubit := by
    intro o member
    obtain ⟨access, own, same, _⟩ := covers.qubits (by rw [operation]; rfl) o member
    rw [operation] at own
    cases List.mem_singleton.mp own
    exact same.symm
  refine ⟨written.symm, by rw [operation]; rfl, ?_, ?_, ?_, ?_⟩
  · intro o' member
    obtain ⟨o, there, name, use, noted⟩ := mem_memory_unmeasured member
    refine ⟨o, there, name, use, noted.symm.imp_right ?_⟩
    rintro ⟨here, same⟩
    have writes : o.isAssignment = true := by
      by_contra reads
      refine covers.unwritten distinct there (by simpa using reads) ?_
      rw [here, operation, writtenNames_measure]
      exact List.mem_singleton_self target
    rw [same, Outlook.value, if_pos writes, written, here]
    simp [Evaluation.valueIn]
  · intro o member
    obtain ⟨there, differ⟩ := List.mem_filter.mp member
    simp [only o there] at differ
  · intro o member gone
    refine absurd ?_ gone
    rw [resources_unmeasured]
    exact List.mem_filter.mpr ⟨memory_mem_resources.mpr ⟨o, member, rfl⟩, rfl⟩
  · intro o member _
    obtain ⟨state, known, isCertain⟩ := Option.bind_eq_some_iff.mp certain
    rw [Outlook.state, only o member, operation, known]
    simp [Operation.stateAfter?, isCertain]

theorem folded_measurement (founded : Founded whole outlook node) (fits : Fits node) (covers : Covers list node)
    (distinct : node.resources.Nodup) (operation : node.operation = .measure qubit (some target)) {outcome : Bool}
    (certain : (outlook.qubit qubit).bind QubitState.outcome? = some outcome) :
    Folded whole outlook node (unmeasured node qubit target (.ofBool outcome)) := by
  have near : ∀ o' ∈ (unmeasured node qubit target (.ofBool outcome)).memory,
      Memory.mayOverlap o'.name target = true := by
    intro o' member
    obtain ⟨o, there, name, _⟩ := mem_memory_unmeasured member
    obtain ⟨a, own, overlaps⟩ := fits.named o there
    rw [operation] at own
    cases List.mem_singleton.mp own
    exact name ▸ overlaps
  refine (informs_unmeasured covers distinct operation certain).folded founded ⟨?_, ?_⟩
    (settled_classical rfl (fun _ => ⟨rfl, rfl, ?_⟩))
  · intro o' member
    exact ⟨⟨target, .assignment⟩, List.mem_singleton_self _, near o' member⟩
  · intro o' member _
    refine ⟨target, ?_, near o' member⟩
    change target ∈ writtenNames (.classical "MOVE" [.address target, .literal (.ofBool outcome)])
    rw [writtenNames_move]
    exact List.mem_singleton_self target
  · refine List.eq_nil_iff_forall_not_mem.mpr (fun name member => ?_)
    obtain ⟨⟨o', there, rfl⟩, apart⟩ := mem_unnamed.mp member
    have overlaps := near o' there
    rw [Memory.mayOverlap_comm, apart target (List.mem_singleton_self target)] at overlaps
    cases overlaps

end Measurements

/-! ## Quantum instructions -/

theorem follow_eq (founded : Founded whole outlook node) {o : QubitOccurrence} (member : o ∈ node.qubits) :
    node.operation.stateAfter? o.use (o.before.or (outlook.qubit o.name)) = outlook.state node.operation o := by
  rw [Outlook.state]
  cases reset : node.operation.isReset with
  | true =>
      cases operation : node.operation with
      | reset _ => rfl
      | _ =>
          rw [operation] at reset
          cases reset
  | false => rw [(founded.before reset o member).noted_or]

theorem folded_quantum (ordered : Ordered list) (running : id ∈ list.order) (found : list.nodes[id]? = some node)
    (founded : Founded whole (list.outlook isEntry id) node) (fits : Fits node)
    (rule : FoldRule.ofCategory node.category = .quantum) :
    Folded whole (list.outlook isEntry id) node
      { node with qubits := node.qubits.map (Folding.followQubit list isEntry node) } := by
  have informs : Informs (list.outlook isEntry id) node
      { node with qubits := node.qubits.map (Folding.followQubit list isEntry node) } := by
    refine ⟨rfl, rfl, fun o member => ⟨o, member, rfl, rfl, .inl rfl⟩, ?_, ?_, ?_⟩
    · intro o' member
      obtain ⟨o, there, rfl⟩ := List.mem_map.mp member
      have looked := InstructionList.qubitBefore?_of_mem ordered running found isEntry there
      refine ⟨o, there, rfl, rfl, .inr ?_, .inr ?_⟩
      · simp only [Folding.followQubit, looked, follow_eq founded there]
        exact (founded.after o there).noted_or
      · simp only [Folding.followQubit, looked]
    · intro o member gone
      exact absurd (List.mem_append_left _ (List.mem_map_of_mem member)) gone
    · intro o member gone
      refine absurd (List.mem_append_right _ ?_) gone
      rw [List.map_map]
      exact List.mem_map.mpr ⟨o, member, rfl⟩
  exact informs.folded founded (fits.congr rfl rfl)
    (settled_of_unfolded (by simp [rule]) (by simp [rule]) (by simp [rule]))

end TwoLane.Execution
