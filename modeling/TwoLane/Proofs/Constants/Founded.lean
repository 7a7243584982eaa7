import TwoLane.Proofs.Chain.Lookup
import TwoLane.Proofs.Execution.Facts

/-! # Founded facts

What is noted about an instruction is founded if it follows from what is known in front of the instruction. Noted facts
may say less than what follows, and they say all of it behind a propagation. As long as they are founded, a fact that is
found out later never contradicts one that was noted before.
-/

namespace TwoLane

open Indexed (writtenNames usedNames)
open Execution (Covers)

/-! ## Noted and found -/

/-- Whether what is noted is found out as well, and nothing else is found out if the whole of it is to be noted. -/
structure Backed {α : Type} (whole : Prop) (noted found : Option α) : Prop where
  sound : ∀ a, noted = some a → found = some a
  full : whole → noted = found

namespace Backed

variable {α β : Type} {whole : Prop} {a b c : Option α}

theorem of_eq (same : a = b) : Backed whole a b :=
  ⟨fun _ noted => same ▸ noted, fun _ => same⟩

theorem refl (a : Option α) : Backed whole a a :=
  .of_eq rfl

theorem trans (first : Backed whole a b) (second : Backed whole b c) : Backed whole a c :=
  ⟨fun value noted => second.sound value (first.sound value noted), fun w => (first.full w).trans (second.full w)⟩

theorem none (found : Option α) : Backed False Option.none found :=
  ⟨fun _ noted => (nomatch noted), False.elim⟩

theorem eq (backed : Backed True a b) : a = b :=
  backed.full trivial

theorem partly (backed : Backed whole a b) : Backed False a b :=
  ⟨backed.sound, False.elim⟩

theorem between (backed : Backed whole a b) (either : c = a ∨ c = b) : Backed whole a c ∧ Backed whole c b := by
  rcases either with rfl | rfl
  · exact ⟨.refl _, backed⟩
  · exact ⟨backed, .refl _⟩

/-- What is found out comes first; where nothing is, nothing was noted. -/
theorem found_or (backed : Backed whole a b) : b.or a = b := by
  cases b with
  | some _ => rfl
  | none =>
      cases a with
      | none => rfl
      | some value => cases backed.sound value rfl

theorem noted_or (backed : Backed whole a b) : a.or b = b := by
  cases a with
  | none => rfl
  | some value => exact (backed.sound value rfl).symm

theorem bind (backed : Backed whole a b) (further : α → Option β) : Backed whole (a.bind further) (b.bind further) where
  sound := by
    intro value noted
    obtain ⟨first, known, rest⟩ := Option.bind_eq_some_iff.mp noted
    rw [backed.sound first known]
    exact rest
  full := fun w => by rw [backed.full w]

theorem map (backed : Backed whole a b) (f : α → β) : Backed whole (a.map f) (b.map f) := by
  rw [Option.map_eq_bind, Option.map_eq_bind]
  exact backed.bind _

theorem filter (backed : Backed whole a b) (p : α → Bool) : Backed whole (a.filter p) (b.filter p) where
  sound := by
    intro value noted
    obtain ⟨known, holds⟩ := Option.filter_eq_some_iff.mp noted
    exact Option.filter_eq_some_iff.mpr ⟨backed.sound value known, holds⟩
  full := fun w => by rw [backed.full w]

end Backed

theorem Operation.stateAfter?_backed {whole : Prop} {before before' : Option QubitState} (operation : Operation)
    (use : QubitUse) (backed : Backed whole before before') :
    Backed whole (operation.stateAfter? use before) (operation.stateAfter? use before') := by
  cases operation with
  | measure _ _ => exact backed.filter _
  | gate name _ _ =>
      cases use with
      | singleGate => exact backed.bind _
      | _ => exact .refl _
  | _ => exact .refl _

/-! ## What follows from an outlook -/

namespace Outlook

variable (outlook : Outlook) (operation : Operation)

def operand : Operand → Option Number
  | .literal value => some value
  | .address name => outlook.memory name
  | .expression _ _ => none

/-- The values that an operation writes, as far as they are known. -/
def written : List Written :=
  match operation with
  | .measure qubit (some target) => [⟨target, ((outlook.qubit qubit).bind QubitState.outcome?).map .ofBool⟩]
  | .classical opcode operands => Evaluation.writes opcode operands outlook.operand
  | _ => []

def value (o : MemoryOccurrence) : Option Number :=
  if o.isAssignment then Evaluation.valueIn (outlook.written operation) o.name else outlook.memory o.name

def state (o : QubitOccurrence) : Option QubitState :=
  operation.stateAfter? o.use (outlook.qubit o.name)

/-- Whether what is known about a resource is known from another outlook. -/
def BackedAt (whole : Prop) (a b : Outlook) : Resource → Prop
  | .memory name => Backed whole (a.memory name) (b.memory name)
  | .qubit q => Backed whole (a.qubit q) (b.qubit q)

end Outlook

/-- Whether what an instruction relies on in one outlook is known from another one. A reset relies on no state, unless
    all is to be noted. -/
structure Carried (whole : Prop) (a b : Outlook) (node : Instruction) : Prop where
  used : ∀ name ∈ usedNames node.operation, Backed whole (a.memory name) (b.memory name)
  read : ∀ o ∈ node.memory, o.isAssignment = false → Backed whole (a.memory o.name) (b.memory o.name)
  qubits : ∀ o ∈ node.qubits, whole ∨ node.operation.isReset = false → Backed whole (a.qubit o.name) (b.qubit o.name)

/-- Whether what is noted about an instruction is founded in an outlook. The state in front of a reset may be any one,
    unless all is to be noted. -/
structure Founded (whole : Prop) (outlook : Outlook) (node : Instruction) : Prop where
  memory : ∀ o ∈ node.memory, Backed whole o.value (outlook.value node.operation o)
  after : ∀ o ∈ node.qubits, Backed whole o.after (outlook.state node.operation o)
  before : node.operation.isReset = false → ∀ o ∈ node.qubits, Backed whole o.before (outlook.qubit o.name)
  reset : whole → ∀ o ∈ node.qubits, ∀ state, outlook.qubit o.name = some state → o.before = some state

variable {whole : Prop} {outlook a b : Outlook} {list : InstructionList} {node node' : Instruction} {id : Nat}
  {isEntry : Bool}

theorem Execution.Covers.used_mem (covers : Covers list node) {name : String} (used : name ∈ usedNames node.operation) :
    Resource.memory name ∈ node.resources :=
  covers.touches _ (Execution.needed_subset _ (Execution.memory_mem_needed.mpr used))

theorem Execution.Covers.measured_mem (covers : Covers list node) {qubit : String} {target : Option String}
    (operation : node.operation = .measure qubit target) : Resource.qubit qubit ∈ node.resources := by
  refine covers.touches _ ?_
  rw [operation]
  exact List.mem_append_right _ (List.mem_singleton_self _)

/-- What is known about all that an instruction touches is what it relies on. -/
theorem carried_of_held (covers : Covers list node) (held : ∀ r ∈ node.resources, Outlook.BackedAt whole a b r) :
    Carried whole a b node where
  used := fun _ used => held (.memory _) (covers.used_mem used)
  read := fun o member _ => held (.memory o.name) (memory_mem_resources.mpr ⟨o, member, rfl⟩)
  qubits := fun o member _ => held (.qubit o.name) (qubit_mem_resources.mpr ⟨o, member, rfl⟩)

namespace Carried

variable (carried : Carried whole a b node)

include carried

/-- What a classical instruction is known to write is known from the other outlook. -/
theorem writes {opcode : String} {operands : List Operand} (operation : node.operation = .classical opcode operands)
    (name : String) : Backed whole (Evaluation.valueIn (Evaluation.writes opcode operands a.operand) name)
      (Evaluation.valueIn (Evaluation.writes opcode operands b.operand) name) := by
  have used := carried.used
  rw [operation] at used
  have each : ∀ operand : Operand, (∀ name ∈ operand.addresses, name ∈ usedNames (.classical opcode operands)) →
      Backed whole (a.operand operand) (b.operand operand) := by
    intro operand addresses
    cases operand with
    | address name => exact used name (addresses name (List.mem_singleton_self name))
    | literal _ => exact .refl _
    | expression _ _ => exact .refl _
  have behind : ∀ operand ∈ operands.drop (Operation.writtenCount opcode), ∀ name ∈ operand.addresses,
      name ∈ usedNames (.classical opcode operands) :=
    fun operand member name named => Indexed.Machine.addresses_used member named
  have target : Operation.updatingOpcodes.contains opcode = true → ∀ operand ∈ operands, ∀ name ∈ operand.addresses,
      name ∈ usedNames (.classical opcode operands) :=
    fun updates operand member name named => Indexed.Machine.addresses_used_of_updates updates member named
  refine ⟨fun value known => ?_, fun w => ?_⟩
  · -- evaluation reads only the operands that are used, so the others may be taken for unknown
    let relied : Operand → Option Number := fun operand =>
      if operand.addresses.all (fun name => (usedNames (.classical opcode operands)).contains name) then
        a.operand operand
      else none
    have kept : ∀ operand : Operand, (∀ name ∈ operand.addresses, name ∈ usedNames (.classical opcode operands)) →
        a.operand operand = relied operand := by
      intro operand addresses
      have all : operand.addresses.all (fun name => (usedNames (.classical opcode operands)).contains name) = true :=
        List.all_eq_true.mpr (fun name member => List.contains_iff_mem.mpr (addresses name member))
      simp only [relied, all, if_true]
    rw [Evaluation.writes_congr (fun operand member => kept operand (behind operand member))
      (fun updates operand member => kept operand (target updates operand member))] at known
    refine Evaluation.valueIn_writes_mono (fun operand value isKnown => ?_) known
    simp only [relied] at isKnown
    split at isKnown
    · next all =>
      refine (each operand (fun name member => ?_)).sound value isKnown
      exact List.contains_iff_mem.mp (List.all_eq_true.mp all name member)
    · cases isKnown
  · rw [Evaluation.writes_congr (fun operand member => (each operand (behind operand member)).full w)
      (fun updates operand member => (each operand (target updates operand member)).full w)]

theorem written (covers : Covers list node) (name : String) :
    Backed whole (Evaluation.valueIn (a.written node.operation) name)
      (Evaluation.valueIn (b.written node.operation) name) := by
  cases operation : node.operation with
  | measure qubit target =>
      cases target with
      | none => exact .refl _
      | some target =>
          obtain ⟨o, member, rfl⟩ := qubit_mem_resources.mp (covers.measured_mem operation)
          have state := carried.qubits o member (.inr (by rw [operation]; rfl))
          simp only [Outlook.written, Evaluation.valueIn, List.find?_cons, List.find?_nil]
          split
          · exact (state.bind _).map _
          · exact .refl _
  | classical opcode operands => exact carried.writes operation name
  | _ => exact .refl _

theorem value (covers : Covers list node) {o : MemoryOccurrence} (member : o ∈ node.memory) :
    Backed whole (a.value node.operation o) (b.value node.operation o) := by
  rw [Outlook.value, Outlook.value]
  split
  · exact carried.written covers o.name
  · next reads => exact carried.read o member (by simpa using reads)

theorem state {o : QubitOccurrence} (member : o ∈ node.qubits) :
    Backed whole (a.state node.operation o) (b.state node.operation o) := by
  rw [Outlook.state, Outlook.state]
  cases operation : node.operation with
  | reset _ => exact .refl _
  | _ => exact Operation.stateAfter?_backed _ _ (carried.qubits o member (.inr (by rw [operation]; rfl)))

end Carried

namespace Founded

/-- Facts stay founded where what they rely on is known from another outlook. -/
theorem carry (founded : Founded whole a node) (covers : Covers list node) (carried : Carried whole a b node) :
    Founded whole b node where
  memory := fun o member => (founded.memory o member).trans (carried.value covers member)
  after := fun o member => (founded.after o member).trans (carried.state member)
  before := fun plain o member => (founded.before plain o member).trans (carried.qubits o member (.inr plain))
  reset := fun w o member state known =>
    founded.reset w o member state (((carried.qubits o member (.inl w)).full w).trans known)

theorem of_blank (memory : ∀ o ∈ node.memory, o.value = none)
    (qubits : ∀ o ∈ node.qubits, o.before = none ∧ o.after = none) (outlook : Outlook) :
    Founded False outlook node where
  memory := fun o member => memory o member ▸ .none _
  after := fun o member => (qubits o member).2 ▸ .none _
  before := fun _ o member => (qubits o member).1 ▸ .none _
  reset := False.elim

theorem of_links (founded : Founded whole outlook node) (same : node'.withoutLinks = node.withoutLinks) :
    Founded whole outlook node' := by
  have operation := Instruction.operation_congr same
  have memory : ∀ o' ∈ node'.memory, ∃ o ∈ node.memory, { o with links := .none } = { o' with links := .none } := by
    intro o' member
    have view : ({ o' with links := .none } : MemoryOccurrence) ∈ node'.withoutLinks.memory :=
      List.mem_map_of_mem member
    rw [same] at view
    exact List.mem_map.mp view
  have qubits : ∀ o' ∈ node'.qubits, ∃ o ∈ node.qubits, { o with links := .none } = { o' with links := .none } := by
    intro o' member
    have view : ({ o' with links := .none } : QubitOccurrence) ∈ node'.withoutLinks.qubits :=
      List.mem_map_of_mem member
    rw [same] at view
    exact List.mem_map.mp view
  refine ⟨fun o' member => ?_, fun o' member => ?_, fun plain o' member => ?_, fun w o' member => ?_⟩
  · obtain ⟨o, there, equal⟩ := memory o' member
    obtain ⟨name, use, values, _⟩ := MemoryOccurrence.mk.inj equal
    have backed := founded.memory o there
    rw [Outlook.value, MemoryOccurrence.isAssignment, name, use, values] at backed
    rw [operation]
    exact backed
  · obtain ⟨o, there, equal⟩ := qubits o' member
    obtain ⟨name, use, _, states, _⟩ := QubitOccurrence.mk.inj equal
    have backed := founded.after o there
    rw [Outlook.state, name, use, states] at backed
    rw [operation]
    exact backed
  · obtain ⟨o, there, equal⟩ := qubits o' member
    obtain ⟨name, _, states, _⟩ := QubitOccurrence.mk.inj equal
    rw [operation] at plain
    have backed := founded.before plain o there
    rwa [name, states] at backed
  · obtain ⟨o, there, equal⟩ := qubits o' member
    obtain ⟨name, _, states, _⟩ := QubitOccurrence.mk.inj equal
    have known := founded.reset w o there
    rwa [name, states] at known

end Founded

/-! ## What propagation finds out -/

namespace InstructionList

open Execution (Ordered)

variable (ordered : Ordered list) (running : id ∈ list.order) (found : list.nodes[id]? = some node)

include ordered running found

theorem operandBefore?_eq {operand : Operand} (isEntry : Bool)
    (held : ∀ name ∈ operand.addresses, Resource.memory name ∈ node.resources) :
    list.operandBefore? node operand = (list.outlook isEntry id).operand operand := by
  cases operand with
  | address name => exact memoryBefore?_eq ordered.chained running found (held name (List.mem_singleton_self name)) _
  | literal _ => rfl
  | expression _ _ => rfl

theorem held_of_classical {opcode : String} {operands : List Operand}
    (operation : node.operation = .classical opcode operands) {operand : Operand} (member : operand ∈ operands) :
    ∀ name ∈ operand.addresses, Resource.memory name ∈ node.resources := by
  intro name named
  refine (ordered.covers running found).touches _ (Execution.memory_mem_touched.mpr ?_)
  rw [operation]
  rw [← List.take_append_drop (Operation.writtenCount opcode) operands] at member
  rcases List.mem_append.mp member with written | behind
  · exact ⟨_, List.mem_append_left _ (List.mem_map_of_mem (List.mem_flatMap.mpr ⟨operand, written, named⟩)), rfl⟩
  · exact ⟨_, List.mem_append_right _ (List.mem_map_of_mem (List.mem_flatMap.mpr ⟨operand, behind, named⟩)), rfl⟩

/-- What an instruction is found to write follows from what is known in front of it. -/
theorem written_eq (isEntry : Bool) :
    Constants.written list isEntry node = (list.outlook isEntry id).written node.operation := by
  rw [Constants.written]
  cases operation : node.operation with
  | measure qubit target =>
      cases target with
      | none => rfl
      | some target =>
          have measured := (ordered.covers running found).measured_mem operation
          rw [Outlook.written, ← qubitBefore?_eq ordered.chained running found measured isEntry]
  | classical opcode operands =>
      refine Evaluation.writes_congr (fun operand member => ?_) (fun _ operand member => ?_)
      · exact operandBefore?_eq ordered running found isEntry
          (held_of_classical ordered running found operation (List.mem_of_mem_drop member))
      · exact operandBefore?_eq ordered running found isEntry
          (held_of_classical ordered running found operation member)
  | _ => rfl

theorem memoryAfter?_eq (isEntry : Bool) {o : MemoryOccurrence} (member : o ∈ node.memory) :
    Constants.memoryAfter? list isEntry node o = (list.outlook isEntry id).value node.operation o := by
  have held : Resource.memory o.name ∈ node.resources := List.mem_append_left _ (List.mem_map_of_mem member)
  rw [Constants.memoryAfter?, Outlook.value, written_eq ordered running found isEntry,
    memoryBefore?_eq ordered.chained running found held isEntry]

theorem qubitBefore?_of_mem (isEntry : Bool) {o : QubitOccurrence} (member : o ∈ node.qubits) :
    list.qubitBefore? isEntry node o.name = (list.outlook isEntry id).qubit o.name :=
  qubitBefore?_eq ordered.chained running found (List.mem_append_right _ (List.mem_map_of_mem member)) isEntry

/-- Propagation leaves an instruction of which all is noted. -/
theorem founded_annotate (founded : Founded False (list.outlook isEntry id) node) :
    Founded True (list.outlook isEntry id) (Constants.annotate list isEntry node) where
  memory := by
    intro o' member
    obtain ⟨o, there, rfl⟩ := List.mem_map.mp member
    refine .of_eq ?_
    rw [Constants.annotateMemory, memoryAfter?_eq ordered running found isEntry there]
    exact (founded.memory o there).found_or
  after := by
    intro o' member
    obtain ⟨o, there, rfl⟩ := List.mem_map.mp member
    refine .of_eq ?_
    simp only [Constants.annotateQubit, qubitBefore?_of_mem ordered running found isEntry there]
    exact (founded.after o there).found_or
  before := by
    intro plain o' member
    obtain ⟨o, there, rfl⟩ := List.mem_map.mp member
    refine .of_eq ?_
    simp only [Constants.annotateQubit, qubitBefore?_of_mem ordered running found isEntry there]
    exact (founded.before plain o there).found_or
  reset := by
    intro _ o' member state known
    obtain ⟨o, there, rfl⟩ := List.mem_map.mp member
    have looked : (list.outlook isEntry id).qubit o.name = some state := known
    simp only [Constants.annotateQubit, qubitBefore?_of_mem ordered running found isEntry there, looked,
      Option.some_or]

/-- Propagation changes nothing where all is noted. -/
theorem annotate_of_founded (founded : Founded True (list.outlook isEntry id) node) :
    Constants.annotate list isEntry node = node := by
  have memory : node.memory.map (Constants.annotateMemory list isEntry node) = node.memory := by
    refine (List.map_congr_left (fun o member => ?_)).trans (List.map_id _)
    rw [Constants.annotateMemory, memoryAfter?_eq ordered running found isEntry member,
      (founded.memory o member).found_or]
    exact congrArg (fun value => { o with value := value }) (founded.memory o member).eq.symm
  have qubits : node.qubits.map (Constants.annotateQubit list isEntry node) = node.qubits := by
    refine (List.map_congr_left (fun o member => ?_)).trans (List.map_id _)
    have before : ((list.outlook isEntry id).qubit o.name).or o.before = o.before := by
      cases known : (list.outlook isEntry id).qubit o.name with
      | none => rfl
      | some state => exact (founded.reset trivial o member state known).symm
    have after : (node.operation.stateAfter? o.use ((list.outlook isEntry id).qubit o.name)).or o.after = o.after :=
      (founded.after o member).found_or.trans (founded.after o member).eq.symm
    rw [Constants.annotateQubit, qubitBefore?_of_mem ordered running found isEntry member]
    exact congrArg₂ (fun before after => { o with before := before, after := after }) before after
  rw [Constants.annotate, memory, qubits]

end InstructionList

end TwoLane
