import TwoLane.Proofs.Execution.Folding.Outcome
import TwoLane.Proofs.Execution.NewLists
import TwoLane.Proofs.Liveness.Least

/-! # Categories stay truthful

What an instruction touches fits its category and its operation: a quantum one touches no memory, a classical one no qubits,
and a hybrid one is a gate with a reference or a measurement with a target. Only folding changes the three, in steps that
come one after the other, and it drops just the occurrences that the new operation does not account for. So a gate
that keeps an occurrence keeps a reference too, and a measurement that becomes a move loses its only qubit.
-/

namespace TwoLane

open Execution (touched)

namespace Instruction

variable {node node' : Instruction}

/-- Whether an instruction is of the kind that its category says. -/
def Typed (node : Instruction) : Prop :=
  match node.category with
  | .quantum => node.memory = []
  | .classical => node.qubits = []
  | .classicalToQuantum =>
      (∃ name params qubits, node.operation = .gate name params qubits) ∧ node.operation.memoryAccesses ≠ []
  | .quantumToClassical => ∃ qubit target, node.operation = .measure qubit (some target)
  | .control | .classicalControl => True

/-- Whether an instruction has an occurrence for all that its operation names and no other ones than that accounts for. -/
structure Accounted (node : Instruction) : Prop where
  touches : touched node.operation ⊆ node.resources
  near : ∀ o ∈ node.memory, ∃ a ∈ node.operation.memoryAccesses, Memory.mayOverlap o.name a.name = true
  /-- Only the reset of all qubits touches qubits that it does not name. -/
  named : node.operation.isGlobalReset = false → ∀ o ∈ node.qubits, Resource.qubit o.name ∈ touched node.operation

/-- Whether category, operation and occurrences of an instruction agree. -/
structure Truthful (node : Instruction) : Prop where
  typed : node.Typed
  accounted : node.Accounted

def face (node : Instruction) : Operation × List String × List String :=
  (node.operation, node.memory.map MemoryOccurrence.name, node.qubits.map QubitOccurrence.name)

theorem face_withoutLinks (node : Instruction) : node.withoutLinks.face = node.face := by
  simp [face, withoutLinks, Function.comp_def]

theorem Typed.congr (typed : node.Typed) (category : node'.category = node.category) (same : node'.face = node.face) :
    node'.Typed := by
  simp only [face, Prod.mk.injEq] at same
  obtain ⟨operation, memory, qubits⟩ := same
  have noMemory : node'.memory = [] ↔ node.memory = [] := by
    rw [← List.map_eq_nil_iff, memory, List.map_eq_nil_iff]
  have noQubits : node'.qubits = [] ↔ node.qubits = [] := by
    rw [← List.map_eq_nil_iff, qubits, List.map_eq_nil_iff]
  unfold Typed at typed ⊢
  rw [category, operation, noMemory, noQubits]
  exact typed

theorem Accounted.congr (accounted : node.Accounted) (same : node'.face = node.face) : node'.Accounted := by
  simp only [face, Prod.mk.injEq] at same
  obtain ⟨operation, memory, qubits⟩ := same
  have resources : node'.resources = node.resources := by
    have names := congrArg (List.map Resource.memory) memory
    have states := congrArg (List.map Resource.qubit) qubits
    rw [List.map_map, List.map_map] at names states
    exact congrArg₂ (· ++ ·) names states
  refine ⟨?_, fun o member => ?_, fun plain o member => ?_⟩
  · rw [operation, resources]
    exact accounted.touches
  · have listed : o.name ∈ node'.memory.map MemoryOccurrence.name := List.mem_map_of_mem member
    rw [memory] at listed
    obtain ⟨first, there, name⟩ := List.mem_map.mp listed
    rw [operation, ← name]
    exact accounted.near first there
  · have listed : o.name ∈ node'.qubits.map QubitOccurrence.name := List.mem_map_of_mem member
    rw [qubits] at listed
    obtain ⟨first, there, name⟩ := List.mem_map.mp listed
    rw [operation, ← name]
    exact accounted.named (operation ▸ plain) first there

theorem Truthful.congr (truthful : node.Truthful) (category : node'.category = node.category)
    (same : node'.face = node.face) : node'.Truthful :=
  ⟨truthful.typed.congr category same, truthful.accounted.congr same⟩

theorem Truthful.of_links (truthful : node.Truthful) (same : node'.withoutLinks = node.withoutLinks) :
    node'.Truthful := by
  have face := congrArg face same
  rw [face_withoutLinks, face_withoutLinks] at face
  exact truthful.congr (category_congr same) face

end Instruction

/-! ## Folded instructions -/

namespace Execution

open Instruction (Accounted Truthful)

variable {node node' : Instruction} {operation : Operation} {operands : List Operand}

/-- Where a new operation names some of the old references, the occurrences that stay are those it accounts for. -/
theorem accounted_renewed (accounted : node.Accounted) (same : node'.face = node.face)
    (touches : touched operation ⊆ touched node.operation)
    (names : ∀ name, Resource.memory name ∈ touched operation ↔ name ∈ operands.flatMap Operand.addresses)
    (qubits : operation.qubitAccesses = node.operation.qubitAccesses)
    (global : operation.isGlobalReset = node.operation.isGlobalReset) :
    (renewed node' operation (Folding.unnamed node operands)).Accounted := by
  have before := accounted.congr same
  simp only [Instruction.face, Prod.mk.injEq] at same
  obtain ⟨operation', memory, _⟩ := same
  refine ⟨?_, fun o member => ?_, fun plain o member => ?_⟩
  · intro resource member
    have there := before.touches (operation' ▸ touches member)
    rcases List.mem_append.mp there with kept | qubit
    · obtain ⟨o, own, rfl⟩ := List.mem_map.mp kept
      have stays : o.name ∉ Folding.unnamed node operands :=
        fun goes => not_named_of_unnamed goes ((names o.name).mp member)
      refine List.mem_append_left _ (List.mem_map.mpr ⟨o, List.mem_filter.mpr ⟨own, ?_⟩, rfl⟩)
      simpa using stays
    · exact List.mem_append_right _ qubit
  · obtain ⟨other, named, overlaps⟩ := overlaps_of_mem_renewed memory member
    obtain ⟨a, own, rfl⟩ := memory_mem_touched.mp ((names other).mpr named)
    exact ⟨a, own, overlaps⟩
  · have there := before.named (operation' ▸ global ▸ plain) o member
    rw [operation', qubit_mem_touched, ← qubits] at there
    exact qubit_mem_touched.mpr there

theorem face_noteWritten (written : List Written) (node : Instruction) :
    (Folding.noteWritten written node).face = node.face := by
  have memory := congrArg (List.map Prod.fst) (names_noteWritten written node)
  simp only [List.map_map, Function.comp_def] at memory
  rw [Instruction.face, Instruction.face, memory, noteWritten_eq]

theorem truthful_simplified (truthful : node.Truthful) (classical : node.category = .classical)
    {opcode opcode' : String} {operands operands' : List Operand} (same : node.operation = .classical opcode operands)
    (subset : operands'.flatMap Operand.addresses ⊆ operands.flatMap Operand.addresses) (written : List Written) :
    (renewed (Folding.noteWritten written node) (.classical opcode' operands')
      (Folding.unnamed node operands')).Truthful where
  typed := by
    have typed := truthful.typed
    rw [noteWritten_eq]
    change (match node.category with | _ => _)
    rw [classical]
    rw [Instruction.Typed, classical] at typed
    exact typed
  accounted := by
    refine accounted_renewed truthful.accounted (face_noteWritten written node) ?_
      (fun _ => memory_mem_touched_classical) ?_ ?_
    all_goals rw [same]
    · exact touched_classical subset
    · rfl
    · rfl

theorem truthful_gate (truthful : node.Truthful) (hybrid : node.category = .classicalToQuantum) {gate : String}
    {params params' : List Operand} {qubits : List String} (same : node.operation = .gate gate params qubits)
    (subset : params'.flatMap Operand.addresses ⊆ params.flatMap Operand.addresses) :
    (settled (renewed node (.gate gate params' qubits) (Folding.unnamed node params'))).Truthful := by
  set fresh := renewed node (.gate gate params' qubits) (Folding.unnamed node params') with isFresh
  have accounted : fresh.Accounted := by
    refine accounted_renewed truthful.accounted rfl ?_ (fun _ => memory_mem_touched_gate) ?_ ?_
    all_goals rw [same]
    · exact touched_gate subset
    · rfl
    · rfl
  rw [settled]
  split
  · next none => exact ⟨List.isEmpty_iff.mp none, accounted.congr rfl⟩
  · next some =>
    refine ⟨?_, accounted⟩
    have category : fresh.category = .classicalToQuantum := hybrid
    rw [Instruction.Typed, category]
    refine ⟨⟨gate, params', qubits, rfl⟩, fun unnamed => ?_⟩
    obtain ⟨o, member⟩ := List.exists_mem_of_ne_nil fresh.memory (by simpa using some)
    obtain ⟨a, own, _⟩ := accounted.near o member
    exact List.not_mem_nil (unnamed ▸ own)

/-- A measurement that has become a move is truthful: it had one qubit, and its target accounts for all of its memory. -/
theorem truthful_unmeasured (truthful : node.Truthful) {qubit target : String}
    (same : node.operation = .measure qubit (some target)) (value : Number) :
    (unmeasured node qubit target value).Truthful := by
  have only : ∀ o ∈ node.qubits, o.name = qubit := by
    intro o member
    have named := truthful.accounted.named (by rw [same]; rfl) o member
    rw [same] at named
    obtain ⟨a, own, name⟩ := qubit_mem_touched.mp named
    cases List.mem_singleton.mp own
    exact name.symm
  have none : (unmeasured node qubit target value).qubits = [] :=
    List.filter_eq_nil_iff.mpr (fun o member => by simp [only o member])
  refine ⟨none, fun resource member => ?_, fun o' member => ?_, fun _ o member => ?_⟩
  · have move : touched (.classical "MOVE" [.address target, .literal value]) = [.memory target] := rfl
    cases List.mem_singleton.mp (move ▸ member)
    have there := truthful.accounted.touches (a := .memory target)
      (by rw [same]; exact List.mem_append_left _ (List.mem_singleton_self _))
    rw [resources_unmeasured]
    exact List.mem_filter.mpr ⟨there, rfl⟩
  · obtain ⟨o, there, name, _⟩ := mem_memory_unmeasured member
    obtain ⟨a, own, overlaps⟩ := truthful.accounted.near o there
    rw [same] at own
    cases List.mem_singleton.mp own
    exact ⟨⟨target, .assignment⟩, List.mem_singleton_self _, name ▸ overlaps⟩
  · rw [none] at member
    cases member

end Execution

/-! ## Lists -/

namespace InstructionList

open Execution (foldStep foldAll_fst Evolves)
open Instruction (Truthful)

variable {list after : InstructionList} {id index : Nat} {node : Instruction} {change : Instruction → Instruction}

/-- Whether all instructions of a list are truthful, and stand where their numbers say. -/
structure AllTruthful (list : InstructionList) : Prop where
  numbered : ∀ {id : Nat} {node : Instruction}, list.nodes[id]? = some node → node.id = id
  truthful : ∀ {id : Nat} {node : Instruction}, list.nodes[id]? = some node → node.Truthful

theorem AllTruthful.of_nodes (allTruthful : list.AllTruthful)
    (nodes : ∀ {id : Nat} {node' : Instruction}, after.nodes[id]? = some node' →
      ∃ node, list.nodes[id]? = some node ∧ node'.id = node.id ∧ (node.Truthful → node'.Truthful)) :
    after.AllTruthful where
  numbered := by
    intro id node' found
    obtain ⟨node, there, same, _⟩ := nodes found
    exact same.trans (allTruthful.numbered there)
  truthful := by
    intro id node' found
    obtain ⟨node, there, _, kept⟩ := nodes found
    exact kept (allTruthful.truthful there)

theorem AllTruthful.of_links (allTruthful : list.AllTruthful) (same : SameButLinks list after) : after.AllTruthful := by
  refine allTruthful.of_nodes (fun found => ?_)
  obtain ⟨node, there, equal⟩ := same.symm.getElem? found
  exact ⟨node, there, Instruction.id_congr equal, fun truthful => truthful.of_links equal⟩

/-- A change of one instruction that keeps its category, its operation and the names of its occurrences. -/
theorem AllTruthful.modify (allTruthful : list.AllTruthful) (id : Nat)
    (same : ∀ node, list.nodes[id]? = some node →
      (change node).id = node.id ∧ (change node).category = node.category ∧ (change node).face = node.face) :
    (list.modify id change).AllTruthful := by
  refine allTruthful.of_nodes (fun {j} node' found => ?_)
  rw [InstructionList.modify, List.getElem?_modify] at found
  obtain ⟨node, there, rfl⟩ := Option.map_eq_some_iff.mp found
  refine ⟨node, there, ?_⟩
  split
  · next here =>
    obtain ⟨number, category, face⟩ := same node (here ▸ there)
    exact ⟨number, fun truthful => truthful.congr category face⟩
  · exact ⟨rfl, fun truthful => truthful⟩

theorem AllTruthful.altered (allTruthful : list.AllTruthful) (alters : Alters list after id change)
    (found : list.nodes[id]? = some node) (number : (change node).id = node.id) (kept : (change node).Truthful) :
    after.AllTruthful := by
  refine allTruthful.of_nodes (fun there => ?_)
  obtain ⟨before, own, same | ⟨rfl, changed⟩⟩ := alters.exists_before found there
  · exact ⟨before, own, Instruction.id_congr same, fun truthful => truthful.of_links same⟩
  · exact ⟨before, own, (Instruction.id_congr changed).trans number, fun _ => kept.of_links changed⟩

theorem AllTruthful.foldl {α : Type} {step : InstructionList → α → InstructionList} (items : List α)
    (each : ∀ (list : InstructionList) (item : α), list.AllTruthful → (step list item).AllTruthful)
    (allTruthful : list.AllTruthful) : (items.foldl step list).AllTruthful := by
  induction items generalizing list with
  | nil => exact allTruthful
  | cons item rest ih => exact ih (each list item allTruthful)

/-! ## Folding -/

theorem AllTruthful.foldClassical (allTruthful : list.AllTruthful) (found : list.nodes[id]? = some node)
    (classical : node.category = .classical) : (Folding.foldClassical list node).1.AllTruthful := by
  have number := allTruthful.numbered found
  rcases Execution.foldClassical_cases list node with
    same | ⟨written, same⟩ | ⟨_, _, written, _, _, operation, subset, _, same⟩
  · rwa [same]
  · rw [same]
    refine allTruthful.modify node.id (fun other _ => ?_)
    have face := Execution.face_noteWritten written other
    rw [Execution.noteWritten_eq] at face ⊢
    exact ⟨rfl, rfl, face⟩
  · rw [same, number]
    refine allTruthful.altered (Execution.alters_renewed list id written _ _) found ?_
      (Execution.truthful_simplified (allTruthful.truthful found) classical operation subset written)
    rw [Execution.noteWritten_eq]
    rfl

theorem AllTruthful.foldQuantum (allTruthful : list.AllTruthful) (found : list.nodes[id]? = some node) (isEntry : Bool) :
    (Folding.foldQuantum list isEntry node).1.AllTruthful := by
  rw [Folding.foldQuantum, allTruthful.numbered found]
  refine allTruthful.modify id (fun other there => ?_)
  cases found.symm.trans there
  refine ⟨rfl, rfl, ?_⟩
  rw [Instruction.face, List.map_map]
  rfl

theorem AllTruthful.foldGate (allTruthful : list.AllTruthful) (found : list.nodes[id]? = some node)
    (hybrid : node.category = .classicalToQuantum) {gate : String} {params : List Operand} {qubits : List String}
    (operation : node.operation = .gate gate params qubits) :
    (Folding.foldGate list node gate params qubits).1.AllTruthful := by
  unfold Folding.foldGate
  dsimp only
  rw [allTruthful.numbered found]
  split
  · set params' := params.map (Folding.substitute list node)
    have alters := ((alters_modify list id (fun n => n.setOperation (.gate gate params' qubits))).detachAll
      (Folding.unnamed node params')).modify Execution.settled Execution.withoutLinks_settled
    refine allTruthful.altered alters found ?_ (Execution.truthful_gate (allTruthful.truthful found) hybrid operation
      (Execution.addresses_substituted list node params))
    rw [Execution.settled]
    split
    · rfl
    · rfl
  · exact allTruthful

theorem AllTruthful.foldMeasurement (allTruthful : list.AllTruthful) (found : list.nodes[id]? = some node)
    (isEntry : Bool) {qubit target : String} (operation : node.operation = .measure qubit (some target)) :
    (Folding.foldMeasurement list isEntry node qubit target).1.AllTruthful := by
  unfold Folding.foldMeasurement
  dsimp only
  rw [allTruthful.numbered found]
  split
  · exact allTruthful
  · next outcome _ =>
    exact allTruthful.altered
      ((alters_modify list id (fun n => Execution.moved n target (.ofBool outcome))).dropped (.qubit qubit)) found rfl
      (Execution.truthful_unmeasured (allTruthful.truthful found) operation _)

/-- Folding by the rule of its category keeps an instruction truthful. A hybrid rule meets the operations that the
    categories allow. -/
theorem AllTruthful.foldStep (isEntry : Bool) (list : InstructionList) (id : Nat) (allTruthful : list.AllTruthful) :
    (foldStep isEntry list id).AllTruthful := by
  rw [Execution.foldStep]
  split
  · next node found =>
    have typed := (allTruthful.truthful found).typed
    rw [Instruction.Typed] at typed
    cases category : node.category with
    | classical => exact allTruthful.foldClassical found category
    | quantum => exact allTruthful.foldQuantum found isEntry
    | control | classicalControl => exact allTruthful
    | classicalToQuantum =>
        rw [category] at typed
        obtain ⟨⟨gate, params, qubits, operation⟩, _⟩ := typed
        simp only [FoldRule.ofCategory, Folding.foldNode, Folding.foldHybrid, operation]
        exact allTruthful.foldGate found category operation
    | quantumToClassical =>
        rw [category] at typed
        obtain ⟨qubit, target, operation⟩ := typed
        simp only [FoldRule.ofCategory, Folding.foldNode, Folding.foldHybrid, operation]
        exact allTruthful.foldMeasurement found isEntry operation
  · exact allTruthful

/-! ## Steps -/

theorem AllTruthful.annotated (allTruthful : list.AllTruthful) (index : Nat) :
    (Constants.propagateList index list).1.AllTruthful := by
  rw [Constants.propagateList, InstructionList.annotateAll_fst]
  refine AllTruthful.foldl _ (fun list id allTruthful => ?_) allTruthful
  rw [Constants.annotateAt]
  split
  · next node found =>
    refine allTruthful.modify id (fun other there => ?_)
    cases found.symm.trans there
    refine ⟨rfl, rfl, ?_⟩
    simp only [Instruction.face, Constants.annotate, List.map_map]
    rfl
  · exact allTruthful

/-- Whatever a step makes of a list, its instructions stay truthful. -/
theorem AllTruthful.evolves (allTruthful : list.AllTruthful) {map : HybridMap} (evolves : Evolves map index list after) :
    after.AllTruthful := by
  cases evolves with
  | stays => exact allTruthful
  | marked judged =>
      exact AllTruthful.foldl judged (fun list liveness allTruthful =>
        allTruthful.modify liveness.id (fun _ _ => ⟨rfl, rfl, rfl⟩)) allTruthful
  | annotated => exact allTruthful.annotated index
  | folded =>
      rw [Folding.foldList, foldAll_fst]
      exact AllTruthful.foldl _ (AllTruthful.foldStep (index == 0)) allTruthful
  | removed _ removal =>
      have same := sameButLinks_of_removeAll removal
      refine AllTruthful.of_links ?_ same
      exact ⟨allTruthful.numbered, allTruthful.truthful⟩
  | reordered _ installed =>
      obtain ⟨rfl, _, _⟩ := of_reorder_eq_ok installed
      exact ⟨allTruthful.numbered, allTruthful.truthful⟩

end InstructionList

/-! ## Lists that steps have changed -/

open Indexed (Part)
open InstructionList (AllTruthful)

theorem accounted_new {part : Part} (new : ∀ node ∈ part.nodes, node.IsNew) {id : Nat} {node : Instruction}
    (found : part.list.nodes[id]? = some node) : node.Accounted := by
  have found : (InstructionList.ofNodes part.block part.title part.nodes).nodes[id]? = some node := found
  have inside : id < part.nodes.length := by
    rw [← InstructionList.length_ofNodes]
    exact (List.getElem?_eq_some_iff.mp found).1
  have covers := Execution.covers_ofNodes new (List.mem_range.mpr inside) found
  have complete := InstructionList.complete_ofNodes new found
  refine ⟨fun resource => covers.touches resource, fun o member => ?_, fun plain o member => ?_⟩
  · exact ((complete.names o.name).mp (List.mem_map_of_mem member)).2
  · obtain ⟨a, own, name, _⟩ := covers.qubits plain o member
    exact Execution.qubit_mem_touched.mpr ⟨a, own, name⟩

/-- Where each instruction of new lists is of the kind that its category says, so is each instruction of all lists that
    steps make of them. Each touches all that its operation names, and nothing that its operation does not account for. -/
theorem categories_stay_truthful {parts : List Part} (new : ∀ part ∈ parts, ∀ node ∈ part.nodes, node.IsNew)
    (typed : ∀ part ∈ parts, ∀ node ∈ part.list.nodes, node.Typed) {state : Workspace}
    (worked : Liveness.Worked parts state) : ∀ list ∈ state.lists, ∀ node ∈ list.nodes, node.Truthful := by
  have all : ∀ list ∈ state.lists, list.AllTruthful := by
    refine worked.induction (fun part there => ?_) (fun allTruthful evolves => allTruthful.evolves evolves)
    refine ⟨(Part.chained_of_isNew (new part there)).numbered, fun found => ?_⟩
    exact ⟨typed part there _ (List.mem_of_getElem? found), accounted_new (new part there) found⟩
  intro list there node member
  obtain ⟨id, found⟩ := List.getElem?_of_mem member
  exact (all list there).truthful found

namespace Instruction

/-- The check whether an instruction is of the kind that its category says. -/
def isTyped (node : Instruction) : Bool :=
  match node.category, node.operation with
  | .quantum, _ => node.memory.isEmpty
  | .classical, _ => node.qubits.isEmpty
  | .classicalToQuantum, .gate name params qubits => !(Operation.gate name params qubits).memoryAccesses.isEmpty
  | .classicalToQuantum, _ => false
  | .quantumToClassical, .measure _ (some _) => true
  | .quantumToClassical, _ => false
  | .control, _ | .classicalControl, _ => true

theorem isTyped_iff (node : Instruction) : node.isTyped = true ↔ node.Typed := by
  rw [Typed, isTyped]
  cases node.category with
  | quantum | classical => exact List.isEmpty_iff
  | control | classicalControl => simp
  | classicalToQuantum => cases operation : node.operation <;> simp
  | quantumToClassical =>
      cases operation : node.operation with
      | measure qubit target => cases target <;> simp
      | _ => simp

instance (node : Instruction) : Decidable node.Typed :=
  decidable_of_iff _ node.isTyped_iff

end Instruction

/-- A measurement with a certain outcome, two gates that use it, and a move of the whole region. -/
def certainParts : List Part :=
  [⟨0, "start", [.ofOperation 0 .quantumToClassical (.measure "0" (some "t[0]")),
    .ofOperation 1 .classicalToQuantum (.gate "RX" [.address "t[0]", .address "s"] ["0"]),
    .ofOperation 2 .classicalToQuantum (.gate "RY" [.address "t[0]"] ["1"]),
    .ofOperation 3 .classical (.classical "MOVE" [.address "u", .address "t"])], []⟩]

/-- Folding makes the measurement a move, takes one reference from the first gate and the only one from the second. -/
theorem certain_categories_stay_truthful :
    ((Step.constantFolding.perform (.ofLists (certainParts.map Part.list) ["u"])).1.lists.map
      (fun list => list.nodes.map Instruction.category)) =
        [[.classical, .classicalToQuantum, .quantum, .classical]] ∧
    ∀ list ∈ (Step.deadCode.perform (Step.constantFolding.perform
      (.ofLists (certainParts.map Part.list) ["u"])).1).1.lists, ∀ node ∈ list.nodes, node.Truthful := by
  have new : ∀ part ∈ certainParts, ∀ node ∈ part.nodes, node.IsNew := by
    simp only [certainParts, List.forall_mem_cons, Instruction.isNew_ofOperation, List.not_mem_nil, false_imp_iff,
      implies_true, and_self]
  have typed : ∀ part ∈ certainParts, ∀ node ∈ part.list.nodes, node.Typed := by decide +kernel
  exact ⟨by decide +kernel, categories_stay_truthful new typed (.step .deadCode (.step .constantFolding (.new ["u"])))⟩

end TwoLane
