import TwoLane.Proofs.Execution.Folding.Rules

/-! # Folding quantum and hybrid instructions

A gate keeps the values of its parameters. A measurement with a certain outcome leaves its qubit as it is, so the
move of the outcome takes its place. Of a quantum instruction only the states of its qubits become known.
-/

namespace TwoLane.Execution

open Indexed (writtenNames usedNames)
open InstructionList (Rewrite)

variable {σ : Type} {device : Device σ} {list : InstructionList} {isEntry : Bool} {node : Instruction}
  {site : Site} {state : State σ}

/-! ## Gates -/

theorem memory_mem_touched_gate {gate : String} {params : List Operand} {qubits : List String} {name : String} :
    Resource.memory name ∈ touched (.gate gate params qubits) ↔ name ∈ params.flatMap Operand.addresses := by
  rw [memory_mem_touched]
  constructor
  · rintro ⟨access, member, rfl⟩
    obtain ⟨name, named, rfl⟩ := List.mem_map.mp member
    exact named
  · intro named
    exact ⟨⟨name, .usage⟩, List.mem_map_of_mem named, rfl⟩

theorem touched_gate {gate : String} {params params' : List Operand} {qubits : List String}
    (subset : params'.flatMap Operand.addresses ⊆ params.flatMap Operand.addresses) :
    touched (.gate gate params' qubits) ⊆ touched (.gate gate params qubits) := by
  intro resource member
  cases resource with
  | memory name => exact memory_mem_touched_gate.mpr (subset (memory_mem_touched_gate.mp member))
  | qubit name =>
      obtain ⟨access, there, same⟩ := qubit_mem_touched.mp member
      exact qubit_mem_touched.mpr ⟨access, there, same⟩

theorem addresses_substituted (list : InstructionList) (node : Instruction) (params : List Operand) :
    (params.map (Folding.substitute list node)).flatMap Operand.addresses ⊆ params.flatMap Operand.addresses := by
  intro name member
  obtain ⟨operand, there, named⟩ := List.mem_flatMap.mp member
  obtain ⟨original, own, rfl⟩ := List.mem_map.mp there
  exact List.mem_flatMap.mpr ⟨original, own, addresses_substitute list node original named⟩

def settled (node : Instruction) : Instruction :=
  if node.memory.isEmpty then { node with category := .quantum } else node

theorem withoutLinks_settled (node : Instruction) : (settled node).withoutLinks = settled node.withoutLinks := by
  have empty : node.withoutLinks.memory.isEmpty = node.memory.isEmpty := List.isEmpty_map
  rw [settled, settled, empty]
  split
  · rfl
  · rfl

theorem settled_spec (node : Instruction) : (settled node).shape = node.shape ∧
    (settled node).operation = node.operation ∧ (settled node).line = node.line ∧
      (settled node).memory = node.memory ∧ (settled node).qubits = node.qubits := by
  unfold settled
  split
  · exact ⟨rfl, rfl, rfl, rfl, rfl⟩
  · exact ⟨rfl, rfl, rfl, rfl, rfl⟩

theorem isControl_settled (plain : node.category.isControl = false) :
    (settled node).category.isControl = node.category.isControl := by
  rw [settled]
  split
  · exact plain.symm
  · rfl

theorem Replaces.settled {after : Instruction} (replaces : Replaces list node after)
    (plain : node.category.isControl = false) : Replaces list node (settled after) := by
  obtain ⟨shape, operation, line, memory, qubits⟩ := settled_spec after
  have resources : (Execution.settled after).resources = after.resources := by
    rw [← Instruction.resources_shape, shape, Instruction.resources_shape]
  have control : after.category.isControl = node.category.isControl :=
    congrArg (fun role : Nat × Bool × Option String => role.2.1) replaces.role
  have role : (Execution.settled after).role = after.role :=
    role_congr line (isControl_settled (control.trans plain)) (by rw [operation])
  refine ⟨role.trans replaces.role, resources ▸ replaces.resources, ?_, replaces.reaches.congr operation resources⟩
  exact replaces.covers.congr operation (by rw [memory]) (by rw [qubits])

theorem HoldsAt.settled {before after : State σ} (holds : HoldsAt device node before after) :
    HoldsAt device (settled node) before after := by
  obtain ⟨_, operation, _, memory, qubits⟩ := settled_spec node
  refine holds.fewer (by rw [operation]; exact fun same => same) (by rw [operation]; exact List.Subset.refl _) ?_ ?_
  · rw [memory]
    exact fun o member => ⟨o, member, rfl⟩
  · rw [qubits]
    exact fun o member => ⟨o, member, rfl⟩

theorem foldGate_spec {id : Nat} (ordered : Ordered list) (running : id ∈ list.order)
    (found : list.nodes[id]? = some node) (isEntry : Bool) (plain : node.category.isControl = false)
    {gate : String} {params : List Operand} {qubits : List String}
    (operation : node.operation = .gate gate params qubits) :
    ∃ node', Rewrite list (Folding.foldGate list node gate params qubits).1 id node' ∧
      Replaces list node node' ∧ ActsAs list isEntry node node' := by
  have number := ordered.chained.numbered found
  have covers := ordered.covers running found
  have start := Rewrite.refl ordered.chained found
  unfold Folding.foldGate
  dsimp only
  rw [number]
  split
  · set params' := params.map (Folding.substitute list node) with substituted
    have rewrite := rewrite_renewed start running found ordered.chained rfl (.gate gate params' qubits) params'
    have subset : params'.flatMap Operand.addresses ⊆ params.flatMap Operand.addresses :=
      addresses_substituted list node params
    refine ⟨settled (renewed node (.gate gate params' qubits) (Folding.unnamed node params')),
      rewrite.modify withoutLinks_settled (fun n => (settled_spec n).1), .settled ?_ plain, ?_⟩
    · refine (Replaces.refl covers).renewed rfl rfl ?_ (fun name => memory_mem_touched_gate.mp) ?_ ?_ ?_ ?_
      · rw [operation]
        exact touched_gate subset
      · rw [writtenNames_gate]
        exact List.nil_subset _
      all_goals
        rw [operation]
        rfl
    · intro σ device site before known holds
      have values : params'.map (device.value before) = params.map (device.value before) := by
        rw [substituted, List.map_map]
        exact List.map_congr_left (fun operand _ => value_substitute known operand)
      refine ⟨?_, (holds.renewed _ ?_ ?_).settled⟩
      · rw [(settled_spec _).2.1, operation]
        change device.exec site (.gate gate params' qubits) before = _
        simp only [Device.exec, values]
      · rw [operation]
        rfl
      · rw [operation, writtenNames_gate]
        exact List.nil_subset _
  · exact ⟨node, start, .refl covers, fun _ holds => ⟨rfl, holds⟩⟩

/-! ## Measurements -/

/-- The move that takes the place of a measurement with a known outcome. -/
def moved (node : Instruction) (target : String) (value : Number) : Instruction :=
  { node.setOperation (.classical "MOVE" [.address target, .literal value]) with
    category := .classical }.modifyMemory target (fun o => { o with value := some value })

theorem shape_moved (node : Instruction) (target : String) (value : Number) :
    (moved node target value).shape = node.shape := by
  unfold moved Instruction.modifyMemory Instruction.shape
  simp only [List.map_map, Instruction.setOperation]
  congr 1
  apply List.map_congr_left
  intro o _
  simp only [Function.comp_apply]
  split
  · rfl
  · rfl

theorem resources_moved (node : Instruction) (target : String) (value : Number) :
    (moved node target value).resources = node.resources := by
  rw [← Instruction.resources_shape, shape_moved, Instruction.resources_shape]

theorem exec_measure {qubit target : String} {known : QubitState} {outcome : Bool}
    (there : state.qubits qubit = device.ket known) (certain : known.outcome? = some outcome) :
    device.exec site (.measure qubit (some target)) state =
      device.exec site (.classical "MOVE" [.address target, .literal (.ofBool outcome)]) state := by
  rw [exec_move]
  simp only [Device.exec]
  congr 1
  · funext name
    rw [there, device.outcome_ket certain]
    simp [eq_comm]
  · funext q
    split
    · next here => rw [here, there, device.collapse_ket (by rw [certain]; rfl)]
    · rfl

/-- What remains of a measurement that has become a move. -/
def unmeasured (node : Instruction) (qubit target : String) (value : Number) : Instruction :=
  (moved node target value).dropOccurrence (.qubit qubit)

theorem mem_memory_unmeasured {qubit target : String} {value : Number} {o' : MemoryOccurrence}
    (member : o' ∈ (unmeasured node qubit target value).memory) :
    ∃ o ∈ node.memory, o.name = o'.name ∧ o.use = o'.use ∧
      ((o.name = target ∧ o'.value = some value) ∨ o'.value = o.value) := by
  obtain ⟨o, there, rfl⟩ := List.mem_map.mp member
  refine ⟨o, there, ?_⟩
  split
  · next here => exact ⟨rfl, rfl, .inl ⟨by simpa using here, rfl⟩⟩
  · exact ⟨rfl, rfl, .inr rfl⟩

theorem mem_unmeasured {qubit target : String} {value : Number} {o : MemoryOccurrence} (member : o ∈ node.memory) :
    ∃ o' ∈ (unmeasured node qubit target value).memory, o'.name = o.name ∧ o'.use = o.use := by
  refine ⟨_, List.mem_map_of_mem member, ?_⟩
  dsimp only
  split
  · exact ⟨rfl, rfl⟩
  · exact ⟨rfl, rfl⟩

theorem Covers.unmeasured (covers : Covers list node) {qubit target : String}
    (operation : node.operation = .measure qubit (some target)) (value : Number) :
    Covers list (unmeasured node qubit target value) where
  touches := by
    intro resource member
    have own : resource = .memory target := by
      cases resource with
      | memory name =>
          have named := memory_mem_touched_classical.mp (show Resource.memory name ∈
            touched (.classical "MOVE" [.address target, .literal value]) from member)
          rw [List.mem_singleton.mp (show name ∈ [target] from named)]
      | qubit name =>
          obtain ⟨_, there, _⟩ := qubit_mem_touched.mp member
          cases there
    have touches := covers.touches (.memory target) (by
      rw [operation]
      exact List.mem_append_left _ (List.mem_singleton_self _))
    rw [own]
    rcases List.mem_append.mp touches with memory | other
    · obtain ⟨o, there, same⟩ := List.mem_map.mp memory
      obtain ⟨o', there', name, _⟩ := mem_unmeasured there
      exact List.mem_append_left _ (List.mem_map.mpr ⟨o', there', by rw [name]; exact same⟩)
    · obtain ⟨_, _, same⟩ := List.mem_map.mp other
      cases same
  writes := by
    intro name member
    have written := covers.writes name (by
      rw [operation]
      change name ∈ writtenNames _ at member
      rw [show (Execution.unmeasured node qubit target value).operation =
        .classical "MOVE" [.address target, .literal value] from rfl, writtenNames_move] at member
      change name ∈ writtenNames _
      rw [writtenNames_measure]
      exact member)
    obtain ⟨o, there, rfl, writes⟩ := written
    obtain ⟨o', there', name, use⟩ := mem_unmeasured there
    refine ⟨o', there', name, ?_⟩
    rw [MemoryOccurrence.isAssignment, use]
    exact writes
  qubits := by
    intro _ o member
    obtain ⟨there, differ⟩ := List.mem_filter.mp member
    obtain ⟨access, own, same, _⟩ := covers.qubits (by rw [operation]; rfl) o there
    rw [operation] at own
    cases List.mem_singleton.mp own
    rw [← same] at differ
    simp at differ
  resets := by
    intro global
    cases global

theorem HoldsAt.unmeasured {before after : State σ} (holds : HoldsAt device node before after)
    {qubit target : String} (operation : node.operation = .measure qubit (some target)) {value : Number}
    (left : after.memory target = value) : HoldsAt device (unmeasured node qubit target value) before after where
  memory := by
    intro o' member known isKnown
    obtain ⟨o, there, name, _, noted⟩ := mem_memory_unmeasured member
    rw [← name]
    rcases noted with ⟨here, same⟩ | same
    · cases isKnown.symm.trans same
      rw [here, left]
    · exact holds.memory o there known (same.symm.trans isKnown)
  named := by
    intro o' member known isKnown writes
    obtain ⟨o, there, name, use, noted⟩ := mem_memory_unmeasured member
    rw [← name]
    change o.name ∈ writtenNames (.classical "MOVE" [.address target, .literal value])
    rw [writtenNames_move]
    rcases noted with ⟨here, _⟩ | same
    · rw [here]
      exact List.mem_singleton_self _
    · have named := holds.named o there known (same.symm.trans isKnown) (by
        rw [MemoryOccurrence.isAssignment, use]
        exact writes)
      rw [operation, writtenNames_measure] at named
      exact named
  after := fun o member => holds.after o (List.mem_filter.mp member).1
  before := fun _ o member => holds.before (by rw [operation]; rfl) o (List.mem_filter.mp member).1

theorem resources_unmeasured (node : Instruction) (qubit target : String) (value : Number) :
    (unmeasured node qubit target value).resources = node.resources.filter (fun r => r != .qubit qubit) := by
  rw [unmeasured, Instruction.resources_dropOccurrence, resources_moved]

/-- The move takes the place of the measurement. -/
theorem Replaces.unmeasured (covers : Covers list node) (plain : node.category.isControl = false)
    {qubit target : String} (operation : node.operation = .measure qubit (some target)) (value : Number) :
    Replaces list node (unmeasured node qubit target value) where
  role := by
    refine role_congr rfl plain.symm ?_
    rw [operation]
    rfl
  resources := by
    rw [resources_unmeasured]
    exact List.filter_subset_self _
  covers := covers.unmeasured operation value
  reaches := by
    refine ⟨?_, ?_⟩
    · intro access named
      rw [operation]
      exact ⟨access, named, rfl⟩
    · intro _ _ name member _
      rw [resources_unmeasured]
      exact List.mem_filter.mpr ⟨member, rfl⟩

theorem foldMeasurement_spec {id : Nat} (ordered : Ordered list) (running : id ∈ list.order)
    (found : list.nodes[id]? = some node) (isEntry : Bool) (plain : node.category.isControl = false)
    {qubit target : String} (operation : node.operation = .measure qubit (some target)) :
    ∃ node', Rewrite list (Folding.foldMeasurement list isEntry node qubit target).1 id node' ∧
      Replaces list node node' ∧ ActsAs list isEntry node node' := by
  have number := ordered.chained.numbered found
  have covers := ordered.covers running found
  have start := Rewrite.refl ordered.chained found
  unfold Folding.foldMeasurement
  dsimp only
  cases outcome : (((node.qubit? qubit).bind QubitOccurrence.before).or
      (list.qubitBefore? isEntry node qubit)).bind QubitState.outcome? with
  | none => exact ⟨node, start, .refl covers, fun _ holds => ⟨rfl, holds⟩⟩
  | some bit =>
      dsimp only
      rw [number]
      have measured : Resource.qubit qubit ∈ touched node.operation := by
        rw [operation]
        exact List.mem_append_right _ (List.mem_singleton_self _)
      have first : Rewrite list (list.modify id (fun n => moved n target (.ofBool bit))) id
          (moved node target (.ofBool bit)) :=
        .first ordered.chained found (shape_moved node target _)
      have rewrite := first.dropped running ((resources_moved node target _).symm ▸ covers.touches _ measured)
      refine ⟨unmeasured node qubit target (.ofBool bit), rewrite, .unmeasured covers plain operation _, ?_⟩
      intro σ device site before known holds
      obtain ⟨state, isKnown, certain⟩ := Option.bind_eq_some_iff.mp outcome
      have there : before.qubits qubit = device.ket state := by
        rcases Option.or_eq_some_iff.mp isKnown with own | ⟨_, looked⟩
        · obtain ⟨o, occurs, noted⟩ := Option.bind_eq_some_iff.mp own
          rw [← Instruction.qubit?_name occurs]
          exact holds.before (by rw [operation]; rfl) o (List.mem_of_find?_eq_some occurs) state noted
        · exact known.qubit looked
      have effect : device.exec site (.measure qubit (some target)) before = _ := exec_measure there certain
      refine ⟨?_, ?_⟩
      · rw [operation, effect]
        rfl
      · refine holds.unmeasured operation ?_
        rw [operation, effect, exec_move]
        exact if_pos rfl

/-! ## Quantum instructions -/

theorem foldQuantum_spec {id : Nat} (ordered : Ordered list) (running : id ∈ list.order)
    (found : list.nodes[id]? = some node) (isEntry : Bool) :
    ∃ node', Rewrite list (Folding.foldQuantum list isEntry node).1 id node' ∧ Replaces list node node' ∧
      ActsAs list isEntry node node' := by
  have number := ordered.chained.numbered found
  have covers := ordered.covers running found
  have shape : Instruction.shape { node with qubits := node.qubits.map (Folding.followQubit list isEntry node) } =
      node.shape := by
    simp [Instruction.shape, Folding.followQubit, Function.comp_def]
  unfold Folding.foldQuantum
  dsimp only
  rw [number]
  refine ⟨_, .first ordered.chained found shape, ⟨rfl, ?_, ?_, .of_same rfl ?_⟩, ?_⟩
  · rw [← Instruction.resources_shape, shape, Instruction.resources_shape]
    exact List.Subset.refl _
  · refine covers.congr rfl rfl ?_
    simp [Folding.followQubit, Function.comp_def]
  · rw [← Instruction.resources_shape, shape, Instruction.resources_shape]
  · intro σ device site before known holds
    have looked : node.operation.isReset = false → ∀ o ∈ node.qubits, ∀ state,
        o.before.or (list.qubitBefore? isEntry node o.name) = some state →
          before.qubits o.name = device.ket state := by
      intro notReset o there state isKnown
      rcases Option.or_eq_some_iff.mp isKnown with old | ⟨_, new⟩
      · exact holds.before notReset o there state old
      · exact known.qubit new
    refine ⟨rfl, holds.memory, holds.named, ?_, ?_⟩
    · intro o' member state isKnown
      obtain ⟨o, there, rfl⟩ := List.mem_map.mp member
      rcases Option.or_eq_some_iff.mp isKnown with old | ⟨_, new⟩
      · exact holds.after o there state old
      · exact qubit_exec_of_stateAfter (fun plain => covers.qubits plain o there)
          (fun notReset => looked notReset o there) new
    · intro notReset o' member state isKnown
      obtain ⟨o, there, rfl⟩ := List.mem_map.mp member
      exact looked notReset o there state isKnown

end TwoLane.Execution
