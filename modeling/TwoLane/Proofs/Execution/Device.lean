import TwoLane.Proofs.Memory.IndexedMachine
import TwoLane.Resource

/-! # Devices

A device runs classical and quantum instructions on one cell for each memory reference and one local state for each
qubit. What the instructions do beyond evaluation and the six known states is left open: results that evaluation does
not give, the effect of gates on other states, and outcomes that are not certain, which may differ from one passage
of an instruction to the next.
-/

namespace TwoLane.Execution

open Indexed (writtenNames usedNames)

/-- One passage of an instruction: how many lists were passed before, and its number in the list. -/
structure Site where
  visit : Nat
  id : Nat

/-- What the cells hold and which states the qubits have. -/
structure State (σ : Type) where
  memory : String → Number
  qubits : String → σ

/-- What a device does, with what is known about it. -/
structure Device (σ : Type) where
  ket : QubitState → σ
  expression : String → List Number → Number
  unknown : String → List Number → String → Number
  gate : Site → String → List Number → List σ → Nat → σ
  outcome : Site → σ → Number
  collapse : Site → σ → σ
  gate_ket : ∀ {name state next}, QubitState.applyNamed? name state = some next →
    ∀ site values, gate site name values [ket state] 0 = ket next
  outcome_ket : ∀ {state bit}, QubitState.outcome? state = some bit →
    ∀ site, outcome site (ket state) = .ofBool bit
  collapse_ket : ∀ {state}, (QubitState.outcome? state).isSome = true →
    ∀ site, collapse site (ket state) = ket state

variable {σ : Type}

/-- The state in which a program starts: all qubits are zero. -/
def start (device : Device σ) (memory : String → Number) : State σ :=
  ⟨memory, fun _ => device.ket .zero⟩

namespace Device

def value (device : Device σ) (state : State σ) : Operand → Number
  | .address name => state.memory name
  | .literal value => value
  | .expression text names => device.expression text (names.map state.memory)

/-- The value of an operand as far as evaluation looks at it. -/
def read (state : State σ) : Operand → Option Number
  | .address name => some (state.memory name)
  | .literal value => some value
  | .expression _ _ => none

/-- The operands that a classical instruction reads. -/
def inputs (opcode : String) (operands : List Operand) : List Operand :=
  if Operation.updatingOpcodes.contains opcode then operands
  else operands.drop (Operation.writtenCount opcode)

/-- The value that a classical instruction writes to a reference. -/
def result (device : Device σ) (state : State σ) (opcode : String) (operands : List Operand)
    (name : String) : Number :=
  (Evaluation.valueIn (Evaluation.writes opcode operands (read state)) name).getD
    (device.unknown opcode ((inputs opcode operands).map (device.value state)) name)

/-- Run an instruction. -/
def exec (device : Device σ) (site : Site) (operation : Operation) (state : State σ) : State σ :=
  match operation with
  | .gate name params qubits =>
      { state with
        qubits := fun q =>
          if q ∈ qubits then
            device.gate site name (params.map (device.value state)) (qubits.map state.qubits)
              (qubits.idxOf q)
          else state.qubits q }
  | .measure qubit target =>
      ⟨fun name => if name ∈ target then device.outcome site (state.qubits qubit) else state.memory name,
        fun q => if q = qubit then device.collapse site (state.qubits q) else state.qubits q⟩
  | .reset (some qubit) =>
      { state with qubits := fun q => if q = qubit then device.ket .zero else state.qubits q }
  | .reset none => { state with qubits := fun _ => device.ket .zero }
  | .classical opcode operands =>
      { state with
        memory := fun name =>
          if name ∈ writtenNames (.classical opcode operands) then
            device.result state opcode operands name
          else state.memory name }
  | _ => state

end Device

/-! ## What an instruction touches -/

/-- Whether two states have the same in the place of a resource. -/
def Same (a b : State σ) : Resource → Prop
  | .memory name => a.memory name = b.memory name
  | .qubit name => a.qubits name = b.qubits name

theorem Same.refl (a : State σ) (resource : Resource) : Same a a resource := by
  cases resource <;> rfl

theorem Same.trans {a b c : State σ} {resource : Resource} (hab : Same a b resource)
    (hbc : Same b c resource) : Same a c resource := by
  cases resource with
  | memory _ => exact Eq.trans hab hbc
  | qubit _ => exact Eq.trans hab hbc

theorem Same.symm {a b : State σ} {resource : Resource} (h : Same a b resource) :
    Same b a resource := by
  cases resource with
  | memory _ => exact Eq.symm h
  | qubit _ => exact Eq.symm h

theorem ext_same {a b : State σ} (same : ∀ resource, Same a b resource) : a = b := by
  cases a
  cases b
  congr
  · funext name
    exact same (.memory name)
  · funext name
    exact same (.qubit name)

def touched (operation : Operation) : List Resource :=
  operation.memoryAccesses.map (fun a => .memory a.name) ++
    operation.qubitAccesses.map (fun a => .qubit a.name)

/-- The resources on which the effect of an operation depends. -/
def needed (operation : Operation) : List Resource :=
  (usedNames operation).map .memory ++
    if operation.isReset then [] else operation.qubitAccesses.map (fun a => .qubit a.name)

variable {device : Device σ} {site : Site} {operation : Operation} {state a b : State σ}

theorem memory_mem_touched {name : String} :
    Resource.memory name ∈ touched operation ↔ ∃ a ∈ operation.memoryAccesses, a.name = name := by
  simp [touched]

theorem qubit_mem_touched {name : String} :
    Resource.qubit name ∈ touched operation ↔ ∃ a ∈ operation.qubitAccesses, a.name = name := by
  simp [touched]

theorem memory_mem_needed {name : String} :
    Resource.memory name ∈ needed operation ↔ name ∈ usedNames operation := by
  unfold needed
  split <;> simp

theorem touched_of_written {name : String} (member : name ∈ writtenNames operation) :
    Resource.memory name ∈ touched operation := by
  obtain ⟨a, there, same, _⟩ := Indexed.mem_writtenNames.mp member
  exact memory_mem_touched.mpr ⟨a, there, same⟩

/-- What an instruction does not touch stays, unless the instruction resets all qubits. -/
theorem same_exec {resource : Resource} (untouched : resource ∉ touched operation)
    (plain : operation.isGlobalReset = true → ∃ name, resource = .memory name) :
    Same (device.exec site operation state) state resource := by
  cases operation with
  | gate name params qubits =>
      cases resource with
      | memory _ => rfl
      | qubit q =>
          refine if_neg (fun member => untouched ?_)
          exact qubit_mem_touched.mpr ⟨_, List.mem_map_of_mem member, rfl⟩
  | measure qubit target =>
      cases resource with
      | memory name =>
          refine if_neg (fun member => untouched ?_)
          refine memory_mem_touched.mpr ⟨⟨name, .assignment⟩, ?_, rfl⟩
          exact List.mem_map.mpr ⟨name, Option.mem_toList.mpr member, rfl⟩
      | qubit q =>
          refine if_neg (fun here => untouched ?_)
          exact qubit_mem_touched.mpr ⟨_, List.mem_singleton_self _, here.symm⟩
  | reset qubit =>
      cases resource with
      | memory _ => cases qubit <;> rfl
      | qubit q =>
          cases qubit with
          | none =>
              obtain ⟨_, memory⟩ := plain rfl
              cases memory
          | some name =>
              refine if_neg (fun here => untouched ?_)
              exact qubit_mem_touched.mpr ⟨_, List.mem_singleton_self _, here.symm⟩
  | classical opcode operands =>
      cases resource with
      | memory name => exact if_neg (fun member => untouched (touched_of_written member))
      | qubit _ => rfl
  | _ => exact Same.refl _ _

/-! ## What an effect depends on -/

theorem value_congr {operand : Operand}
    (same : ∀ name ∈ operand.addresses, a.memory name = b.memory name) :
    device.value a operand = device.value b operand := by
  cases operand with
  | address name => exact same name (List.mem_singleton_self name)
  | literal _ => rfl
  | expression text names => exact congrArg (device.expression text) (List.map_congr_left same)

theorem read_congr {operand : Operand}
    (same : ∀ name ∈ operand.addresses, a.memory name = b.memory name) :
    Device.read a operand = Device.read b operand := by
  cases operand with
  | address name => exact congrArg some (same name (List.mem_singleton_self name))
  | literal _ => rfl
  | expression _ _ => rfl

theorem result_congr {opcode : String} {operands : List Operand}
    (same : ∀ name ∈ usedNames (.classical opcode operands), a.memory name = b.memory name)
    (name : String) :
    device.result a opcode operands name = device.result b opcode operands name := by
  have behind : ∀ operand ∈ operands.drop (Operation.writtenCount opcode),
      ∀ name ∈ operand.addresses, a.memory name = b.memory name :=
    fun operand member name named => same name (Indexed.Machine.addresses_used member named)
  have all : Operation.updatingOpcodes.contains opcode = true → ∀ operand ∈ operands,
      ∀ name ∈ operand.addresses, a.memory name = b.memory name :=
    fun updates operand member name named =>
      same name (Indexed.Machine.addresses_used_of_updates updates member named)
  have written : Evaluation.writes opcode operands (Device.read a) =
      Evaluation.writes opcode operands (Device.read b) :=
    Evaluation.writes_congr (fun operand member => read_congr (behind operand member))
      (fun updates operand member => read_congr (all updates operand member))
  have inputs : ∀ operand ∈ Device.inputs opcode operands,
      device.value a operand = device.value b operand := by
    intro operand member
    unfold Device.inputs at member
    split at member
    · next updates => exact value_congr (all updates operand member)
    · exact value_congr (behind operand member)
  rw [Device.result, Device.result, written, List.map_congr_left inputs]

theorem writtenNames_measure (qubit : String) (target : Option String) :
    writtenNames (.measure qubit target) = target.toList := by
  cases target <;> rfl

theorem writtenNames_gate (name : String) (params : List Operand) (qubits : List String) :
    writtenNames (.gate name params qubits) = [] :=
  Indexed.namesOf_accessesOf .assignment .usage params

theorem memory_exec {name : String} (unwritten : name ∉ writtenNames operation) :
    (device.exec site operation state).memory name = state.memory name := by
  cases operation with
  | measure qubit target =>
      rw [writtenNames_measure, Option.mem_toList] at unwritten
      exact if_neg unwritten
  | classical opcode operands => exact if_neg unwritten
  | reset qubit => cases qubit <;> rfl
  | _ => rfl

theorem used_of_unwritten {name : String} (touches : Resource.memory name ∈ touched operation)
    (unwritten : name ∉ writtenNames operation) : name ∈ usedNames operation := by
  obtain ⟨access, there, rfl⟩ := memory_mem_touched.mp touches
  refine Indexed.Machine.usage_used (List.mem_map_of_mem (List.mem_filter.mpr ⟨there, ?_⟩))
  cases use : access.use with
  | usage => rfl
  | assignment => exact absurd (Indexed.mem_writtenNames.mpr ⟨access, there, rfl, use⟩) unwritten

/-- The state of a qubit that an instruction touches follows from what the instruction needs. -/
theorem qubit_exec (needs : ∀ resource ∈ needed operation, Same a b resource) {q : String}
    (touches : Resource.qubit q ∈ touched operation) :
    (device.exec site operation a).qubits q = (device.exec site operation b).qubits q := by
  have used : ∀ name ∈ usedNames operation, a.memory name = b.memory name :=
    fun name member => needs (.memory name) (memory_mem_needed.mpr member)
  obtain ⟨access, there, rfl⟩ := qubit_mem_touched.mp touches
  cases operation with
  | gate name params qubits =>
      have states : qubits.map a.qubits = qubits.map b.qubits := by
        refine List.map_congr_left (fun q member => needs (.qubit q) ?_)
        refine List.mem_append_right _ (List.mem_map.mpr ⟨_, List.mem_map_of_mem member, rfl⟩)
      have values : params.map (device.value a) = params.map (device.value b) := by
        refine List.map_congr_left (fun operand member => value_congr (fun name named => ?_))
        have access : (⟨name, .usage⟩ : MemoryAccess) ∈ Operation.accessesOf .usage params :=
          List.mem_map_of_mem (List.mem_flatMap.mpr ⟨operand, member, named⟩)
        exact used name (Indexed.Machine.usage_used
          (List.mem_map.mpr ⟨_, List.mem_filter.mpr ⟨access, rfl⟩, rfl⟩))
      have own : access.name ∈ qubits := by
        obtain ⟨q, member, rfl⟩ := List.mem_map.mp there
        exact member
      simp only [Device.exec, if_pos own, states, values]
  | measure qubit target =>
      cases List.mem_singleton.mp there
      have same : a.qubits qubit = b.qubits qubit :=
        needs (.qubit qubit) (List.mem_append_right _ (List.mem_singleton_self _))
      simp only [Device.exec, if_pos, same]
  | reset qubit =>
      cases qubit with
      | none => rfl
      | some name =>
          cases List.mem_singleton.mp there
          simp only [Device.exec, if_pos]
  | _ => cases there

theorem same_exec_of_needed (needs : ∀ resource ∈ needed operation, Same a b resource) :
    ∀ resource ∈ touched operation,
      Same (device.exec site operation a) (device.exec site operation b) resource := by
  have used : ∀ name ∈ usedNames operation, a.memory name = b.memory name :=
    fun name member => needs (.memory name) (memory_mem_needed.mpr member)
  intro resource touches
  cases resource with
  | qubit q => exact qubit_exec needs touches
  | memory name =>
      by_cases written : name ∈ writtenNames operation
      · cases operation with
        | classical opcode operands =>
            exact (if_pos written).trans ((result_congr used name).trans (if_pos written).symm)
        | measure qubit target =>
            have same : a.qubits qubit = b.qubits qubit :=
              needs (.qubit qubit) (List.mem_append_right _ (List.mem_singleton_self _))
            rw [writtenNames_measure, Option.mem_toList] at written
            exact (if_pos written).trans ((congrArg _ same).trans (if_pos written).symm)
        | gate name params qubits =>
            rw [writtenNames_gate] at written
            cases written
        | _ => cases written
      · exact (memory_exec written).trans
          ((used name (used_of_unwritten touches written)).trans (memory_exec written).symm)

end TwoLane.Execution
