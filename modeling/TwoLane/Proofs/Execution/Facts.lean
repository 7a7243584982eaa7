import TwoLane.Proofs.Chain.Facts
import TwoLane.Proofs.Execution.Order

/-! # Facts in an execution

What is known about an occurrence is told of every execution of the list. Since an instruction finds in a resource
what the nearest one before it left there, what is looked up along the chain is true, and so is what is found out
from it.
-/

namespace TwoLane.Execution

open Indexed (writtenNames usedNames)

variable {σ : Type}

/-- Whether what is known about the occurrences of an instruction holds in front of it and behind it, and no
    assignment is known that the operation does not make. A reset does not look at the state before it, so that
    state need not be true. -/
structure HoldsAt (device : Device σ) (node : Instruction) (before after : State σ) : Prop where
  memory : ∀ o ∈ node.memory, ∀ value, o.value = some value → after.memory o.name = value
  named : ∀ o ∈ node.memory, ∀ value, o.value = some value → o.isAssignment = true →
    o.name ∈ writtenNames node.operation
  after : ∀ o ∈ node.qubits, ∀ known, o.after = some known → after.qubits o.name = device.ket known
  before : node.operation.isReset = false → ∀ o ∈ node.qubits, ∀ known, o.before = some known →
    before.qubits o.name = device.ket known

/-- Whether all that is known about the running instructions of a list holds when it runs from a state. -/
def Told (device : Device σ) (visit : Nat) (list : InstructionList) (state : State σ) : Prop :=
  ∀ id ∈ list.order, ∀ node, list.nodes[id]? = some node →
    HoldsAt device node (stateBefore device visit list state id) (stateAfter device visit list state id)

variable {device : Device σ} {visit : Nat} {list : InstructionList} {state a b : State σ} {id : Nat}
  {node : Instruction} {name : String}

/-! ## Looking up -/

theorem isHolder_of_links (running : id ∈ list.order) (found : list.nodes[id]? = some node)
    {resource : Resource} {links : Links} (linked : node.links? resource = some links) :
    list.isHolder resource id = true := by
  have held := Instruction.isSome_links? node resource
  rw [linked] at held
  exact InstructionList.isHolder_iff.mpr ⟨running, node, found, List.contains_iff_mem.mp held.symm⟩

/-- A value looked up in front of an instruction is there. -/
theorem Told.memoryBefore (told : Told device visit list state) (ordered : Ordered list)
    (running : id ∈ list.order) (found : list.nodes[id]? = some node) {value : Number}
    (known : list.memoryBefore? node name = some value) :
    (stateBefore device visit list state id).memory name = value := by
  obtain ⟨previous, before, o, nearest, there, occurs, holds⟩ :=
    InstructionList.memoryBefore?_eq_some ordered.chained running found known
  have holder : list.isHolder (.memory name) id = true := by
    unfold InstructionList.memoryBefore? at known
    split at known
    · next linked =>
        obtain ⟨own, ownFound, _⟩ := Option.map_eq_some_iff.mp linked
        have linkedAt : node.links? (.memory name) = some own.links := by simp [Instruction.links?, ownFound]
        exact isHolder_of_links running found linkedAt
    · cases known
  have runs := (InstructionList.isHolder_iff.mp (Nearest.below?_eq_some.mp nearest).2.1).1
  have named := Instruction.memory?_name occurs
  have left := (told previous runs before there).memory o (List.mem_of_find?_eq_some occurs) value holds
  rw [named] at left
  have same : Same (stateBefore device visit list state id) _ (.memory name) :=
    ordered.same_before holder nearest
  exact Eq.trans same left

/-- A state looked up in front of an instruction is there, if the list with which a program starts is entered
    with all qubits zero. -/
theorem Told.qubitBefore (told : Told device visit list state) (ordered : Ordered list) {isEntry : Bool}
    (entry : isEntry = true → ∀ q, state.qubits q = device.ket .zero) (running : id ∈ list.order)
    (found : list.nodes[id]? = some node) {known : QubitState}
    (looked : list.qubitBefore? isEntry node name = some known) :
    (stateBefore device visit list state id).qubits name = device.ket known := by
  cases occurs : node.qubit? name with
  | none => simp [InstructionList.qubitBefore?, occurs] at looked
  | some o =>
      have linked : node.links? (.qubit name) = some o.links := by simp [Instruction.links?, occurs]
      have holder := isHolder_of_links running found linked
      have exact := ordered.chained.exact running found linked
      have previous := congrArg Links.previous exact
      simp only [InstructionList.qubitBefore?, occurs, Option.map_some, previous,
        InstructionList.nearest] at looked
      cases nearest : Nearest.below? (list.isHolder (.qubit name)) id with
      | none =>
          rw [nearest] at looked
          have first : Same (stateBefore device visit list state id) state (.qubit name) :=
            ordered.same_before_first holder nearest
          cases isEntry with
          | false => cases looked
          | true =>
              cases looked
              exact Eq.trans first (entry rfl name)
      | some last =>
          rw [nearest] at looked
          obtain ⟨before, there, rest⟩ := Option.bind_eq_some_iff.mp looked
          obtain ⟨other, otherFound, holds⟩ := Option.bind_eq_some_iff.mp rest
          have runs := (InstructionList.isHolder_iff.mp (Nearest.below?_eq_some.mp nearest).2.1).1
          have left := (told last runs before there).after other
            (List.mem_of_find?_eq_some otherFound) known holds
          rw [Instruction.qubit?_name otherFound] at left
          have same : Same (stateBefore device visit list state id) _ (.qubit name) :=
            ordered.same_before holder nearest
          exact Eq.trans same left

/-- Whether what is looked up in front of an instruction holds in a state. -/
structure Known (device : Device σ) (list : InstructionList) (isEntry : Bool) (node : Instruction)
    (state : State σ) : Prop where
  memory : ∀ {name value}, list.memoryBefore? node name = some value → state.memory name = value
  qubit : ∀ {name known}, list.qubitBefore? isEntry node name = some known →
    state.qubits name = device.ket known

theorem Told.known {isEntry : Bool} (told : Told device visit list state) (ordered : Ordered list)
    (entry : isEntry = true → ∀ q, state.qubits q = device.ket .zero) (running : id ∈ list.order)
    (found : list.nodes[id]? = some node) :
    Known device list isEntry node (stateBefore device visit list state id) :=
  ⟨told.memoryBefore ordered running found, told.qubitBefore ordered entry running found⟩

theorem Known.refines {isEntry : Bool} (known : Known device list isEntry node state) :
    Evaluation.Refines (list.operandBefore? node) (Device.read state) := by
  intro operand value looked
  cases operand with
  | address name => exact congrArg some (known.memory looked)
  | literal _ => exact looked
  | expression _ _ => cases looked

/-! ## What follows -/

theorem stateAfter_eq (found : list.nodes[id]? = some node) :
    stateAfter device visit list state id =
      device.exec ⟨visit, id⟩ node.operation (stateBefore device visit list state id) := by
  rw [stateAfter, stepAt, found]

theorem memory_exec_of_valueIn {site : Site} {opcode : String} {operands : List Operand}
    {valueOf : Operand → Option Number} (refines : Evaluation.Refines valueOf (Device.read state))
    {value : Number}
    (known : Evaluation.valueIn (Evaluation.writes opcode operands valueOf) name = some value) :
    (device.exec site (.classical opcode operands) state).memory name = value := by
  have member : name ∈ writtenNames (.classical opcode operands) := by
    rw [Indexed.writtenNames_classical]
    exact Evaluation.mem_of_valueIn_writes known
  refine (if_pos member).trans ?_
  rw [Device.result, Evaluation.valueIn_writes_mono refines known]
  rfl

theorem qubit_exec_of_stateAfter {site : Site} {operation : Operation} {use : QubitUse}
    (own : operation.isGlobalReset = false →
      ∃ a ∈ operation.qubitAccesses, a.name = name ∧ a.use = use)
    {before : Option QubitState}
    (there : operation.isReset = false → ∀ known, before = some known →
      state.qubits name = device.ket known)
    {next : QubitState} (follows : operation.stateAfter? use before = some next) :
    (device.exec site operation state).qubits name = device.ket next := by
  cases operation with
  | reset qubit =>
      cases follows
      cases qubit with
      | none => rfl
      | some q =>
          obtain ⟨access, member, rfl, _⟩ := own rfl
          cases List.mem_singleton.mp member
          exact if_pos rfl
  | measure qubit target =>
      obtain ⟨access, member, rfl, _⟩ := own rfl
      cases List.mem_singleton.mp member
      obtain ⟨known, certain⟩ := Option.filter_eq_some_iff.mp follows
      refine (if_pos rfl).trans ?_
      rw [there rfl next known]
      exact device.collapse_ket certain _
  | gate gate params qubits =>
      obtain ⟨access, member, rfl, use⟩ := own rfl
      obtain ⟨q, qIn, rfl⟩ := List.mem_map.mp member
      cases alone : decide (qubits.length > 1) with
      | true =>
          rw [if_pos (of_decide_eq_true alone)] at use
          subst use
          cases follows
      | false =>
          rw [if_neg (of_decide_eq_false alone)] at use
          subst use
          obtain ⟨known, isKnown, applies⟩ := Option.bind_eq_some_iff.mp follows
          have single : qubits = [q] := by
            have short := of_decide_eq_false alone
            match qubits, qIn, short with
            | [_], qIn, _ => rw [List.mem_singleton.mp qIn]
            | _ :: _ :: _, _, short => exact absurd (by simp) short
          subst single
          refine (if_pos (List.mem_singleton_self q)).trans ?_
          rw [List.map_singleton, there rfl known isKnown, List.idxOf_cons_self]
          exact device.gate_ket applies _ _
  | _ => cases follows

theorem Covers.unwritten (covers : Covers list node) (distinct : node.resources.Nodup)
    {o : MemoryOccurrence} (member : o ∈ node.memory) (reads : o.isAssignment = false) :
    o.name ∉ writtenNames node.operation := by
  intro written
  obtain ⟨other, there, same, writes⟩ := covers.writes _ written
  have names : (node.memory.map (fun o => Resource.memory o.name)).Nodup :=
    (List.nodup_append.mp distinct).1
  have equal : other = o :=
    List.inj_on_of_nodup_map names there member (congrArg Resource.memory same)
  rw [equal, reads] at writes
  cases writes

/-- What is found out about the value of an occurrence is true behind the instruction. -/
theorem Known.memoryAfter {isEntry : Bool} (known : Known device list isEntry node state)
    (covers : Covers list node) (distinct : node.resources.Nodup) (site : Site) {o : MemoryOccurrence}
    (member : o ∈ node.memory) {value : Number}
    (found : Constants.memoryAfter? list isEntry node o = some value) :
    (device.exec site node.operation state).memory o.name = value := by
  unfold Constants.memoryAfter? at found
  cases use : o.isAssignment with
  | true =>
      rw [if_pos use, Constants.written] at found
      cases operation : node.operation with
      | measure qubit target =>
          cases target with
          | none =>
              rw [operation] at found
              cases found
          | some target =>
              rw [operation] at found
              obtain ⟨written, there, holds⟩ := Option.bind_eq_some_iff.mp found
              cases List.mem_singleton.mp (List.mem_of_find?_eq_some there)
              have named : target = o.name := by simpa using List.find?_some there
              obtain ⟨bit, certain, rfl⟩ := Option.map_eq_some_iff.mp holds
              obtain ⟨before, looked, certain⟩ := Option.bind_eq_some_iff.mp certain
              refine (if_pos (by simp [named])).trans ?_
              rw [known.qubit looked]
              exact device.outcome_ket certain _
      | classical opcode operands =>
          rw [operation] at found
          exact memory_exec_of_valueIn known.refines found
      | _ =>
          rw [operation] at found
          cases found
  | false =>
      rw [if_neg (by simp [use])] at found
      rw [memory_exec (covers.unwritten distinct member use)]
      exact known.memory found

theorem written_of_memoryAfter {isEntry : Bool} {o : MemoryOccurrence} {value : Number}
    (known : Constants.memoryAfter? list isEntry node o = some value) (writes : o.isAssignment = true) :
    o.name ∈ writtenNames node.operation := by
  rw [Constants.memoryAfter?, if_pos writes, Constants.written] at known
  cases operation : node.operation with
  | measure qubit target =>
      cases target with
      | none =>
          rw [operation] at known
          cases known
      | some target =>
          rw [operation] at known
          obtain ⟨written, found, _⟩ := Option.bind_eq_some_iff.mp known
          cases List.mem_singleton.mp (List.mem_of_find?_eq_some found)
          have named : target = o.name := by simpa using List.find?_some found
          simp [writtenNames_measure, named]
  | classical opcode operands =>
      rw [operation] at known
      rw [Indexed.writtenNames_classical]
      exact Evaluation.mem_of_valueIn_writes known
  | _ =>
      rw [operation] at known
      cases known

/-! ## Changes of what is known -/

/-- What is known about fewer occurrences holds as well. -/
theorem HoldsAt.fewer {before after : State σ} {node' : Instruction} (holds : HoldsAt device node before after)
    (plain : node'.operation.isReset = false → node.operation.isReset = false)
    (written : writtenNames node.operation ⊆ writtenNames node'.operation)
    (memory : ∀ o' ∈ node'.memory, ∃ o ∈ node.memory, { o with links := .none } = { o' with links := .none })
    (qubits : ∀ o' ∈ node'.qubits, ∃ o ∈ node.qubits, { o with links := .none } = { o' with links := .none }) :
    HoldsAt device node' before after where
  memory := by
    intro o' member value known
    obtain ⟨o, there, same⟩ := memory o' member
    obtain ⟨name, _, values, _⟩ := MemoryOccurrence.mk.inj same
    exact name ▸ holds.memory o there value (values.trans known)
  named := by
    intro o' member value known writes
    obtain ⟨o, there, same⟩ := memory o' member
    obtain ⟨name, use, values, _⟩ := MemoryOccurrence.mk.inj same
    refine written (name ▸ holds.named o there value (values.trans known) ?_)
    rw [MemoryOccurrence.isAssignment, use]
    exact writes
  after := by
    intro o' member known isKnown
    obtain ⟨o, there, same⟩ := qubits o' member
    obtain ⟨name, _, _, after, _⟩ := QubitOccurrence.mk.inj same
    exact name ▸ holds.after o there known (after.trans isKnown)
  before := by
    intro notReset o' member known isKnown
    obtain ⟨o, there, same⟩ := qubits o' member
    obtain ⟨name, _, before, _⟩ := QubitOccurrence.mk.inj same
    exact name ▸ holds.before (plain notReset) o there known (before.trans isKnown)

theorem Told.of_effects {other : InstructionList} (effects : SameEffects device visit list other state)
    (each : ∀ id ∈ list.order, ∀ node, other.nodes[id]? = some node → HoldsAt device node
      (stateBefore device visit list state id) (stateAfter device visit list state id)) :
    Told device visit other state := by
  intro id running node found
  rw [effects.order] at running
  rw [effects.before, effects.after running]
  exact each id running node found

end TwoLane.Execution
