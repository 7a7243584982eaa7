import TwoLane.Proofs.Chain.Threads
import TwoLane.Proofs.Execution.Evolution

/-! # What becomes of instructions

Whatever a step makes of a list, each instruction keeps its number, its line and its part in the flow of control. It
touches nothing new, keeps an occurrence for what it writes, and joins the two lanes only where it did before.
-/

namespace TwoLane

open Indexed (writtenNames)
open Liveness (Assigns)

/-- Whether an operation may become another one: classical ones and gates stay what they are, and a measurement may
    become classical. -/
inductive Operation.Becomes : Operation → Operation → Prop where
  | refl (operation : Operation) : Becomes operation operation
  | classical (opcode opcode' : String) (operands operands' : List Operand) :
      Becomes (.classical opcode operands) (.classical opcode' operands')
  | gate (name name' : String) (params params' : List Operand) (qubits qubits' : List String) :
      Becomes (.gate name params qubits) (.gate name' params' qubits')
  | measured (qubit : String) (target : Option String) (opcode : String) (operands : List Operand) :
      Becomes (.measure qubit target) (.classical opcode operands)

theorem Operation.Becomes.trans {a b c : Operation} (first : a.Becomes b) (second : b.Becomes c) : a.Becomes c := by
  cases first with
  | refl => exact second
  | classical => cases second <;> exact .classical _ _ _ _
  | gate => cases second <;> exact .gate _ _ _ _ _ _
  | measured => cases second <;> exact .measured _ _ _ _

/-- Whether an instruction may become another one. -/
structure Instruction.Becomes (node node' : Instruction) : Prop where
  id : node'.id = node.id
  line : node'.line = node.line
  operation : node.operation.Becomes node'.operation
  control : node'.category.isControl = node.category.isControl
  hybrid : node'.category.isHybrid = true → node.category.isHybrid = true
  classical : node.category = .classical → node'.category = .classical
  resources : node'.resources.Sublist node.resources
  assigns : Assigns node → Assigns node'

namespace Instruction

variable {node node' last : Instruction}

theorem Becomes.refl (node : Instruction) : node.Becomes node :=
  ⟨rfl, rfl, .refl _, rfl, fun hybrid => hybrid, fun classical => classical, .refl _, fun assigns => assigns⟩

theorem Becomes.trans (first : node.Becomes node') (second : node'.Becomes last) : node.Becomes last where
  id := second.id.trans first.id
  line := second.line.trans first.line
  operation := first.operation.trans second.operation
  control := second.control.trans first.control
  hybrid := fun hybrid => first.hybrid (second.hybrid hybrid)
  classical := fun classical => second.classical (first.classical classical)
  resources := second.resources.trans first.resources
  assigns := fun assigns => second.assigns (first.assigns assigns)

theorem assigns_of_occurrences (written : writtenNames node'.operation ⊆ writtenNames node.operation)
    (kept : ∀ o ∈ node.memory, o.name ∈ writtenNames node'.operation →
      ∃ o' ∈ node'.memory, o'.name = o.name ∧ o'.use = o.use) (assigns : Assigns node) : Assigns node' := by
  intro name member
  obtain ⟨o, there, rfl, writes⟩ := assigns name (written member)
  obtain ⟨o', there', same, use⟩ := kept o there member
  refine ⟨o', there', same, ?_⟩
  rw [MemoryOccurrence.isAssignment, use]
  exact writes

/-- An instruction of which only what is known about it changes. -/
theorem becomes_of_same (id : node'.id = node.id) (line : node'.line = node.line)
    (category : node'.category = node.category) (operation : node'.operation = node.operation)
    (memory : node'.memory.map (fun o => (o.name, o.use)) = node.memory.map (fun o => (o.name, o.use)))
    (qubits : node'.qubits.map QubitOccurrence.name = node.qubits.map QubitOccurrence.name) :
    node.Becomes node' where
  id := id
  line := line
  operation := operation ▸ .refl _
  control := by rw [category]
  hybrid := by
    rw [category]
    exact fun hybrid => hybrid
  classical := by
    rw [category]
    exact fun classical => classical
  resources := by
    have names := congrArg (List.map (fun view : String × MemoryUse => Resource.memory view.1)) memory
    have states := congrArg (List.map Resource.qubit) qubits
    rw [List.map_map, List.map_map] at names states
    have same : node'.resources = node.resources := congrArg₂ (· ++ ·) names states
    rw [same]
  assigns := by
    refine assigns_of_occurrences (by rw [operation]; exact List.Subset.refl _) (fun o there _ => ?_)
    have view : (o.name, o.use) ∈ node'.memory.map (fun o => (o.name, o.use)) := by
      rw [memory]
      exact List.mem_map_of_mem there
    obtain ⟨o', there', same⟩ := List.mem_map.mp view
    obtain ⟨name, use⟩ := Prod.mk.inj same
    exact ⟨o', there', name, use⟩

theorem becomes_of_links (same : node'.withoutLinks = node.withoutLinks) : node.Becomes node' := by
  have view := fun {β : Type} (f : Instruction → β) => congrArg f same
  refine becomes_of_same (view Instruction.id) (view Instruction.line) (view Instruction.category)
    (view Instruction.operation) ?_ ?_
  · have names := view (fun n => n.memory.map (fun o => (o.name, o.use)))
    simpa only [withoutLinks, List.map_map, Function.comp_def] using names
  · have names := view (fun n => n.qubits.map QubitOccurrence.name)
    simpa only [withoutLinks, List.map_map, Function.comp_def] using names

theorem Becomes.renewed (becomes : node.Becomes node') {operation : Operation} {names : List String}
    (changes : node'.operation.Becomes operation)
    (written : writtenNames operation ⊆ writtenNames node'.operation)
    (kept : ∀ name ∈ names, name ∉ writtenNames operation) :
    node.Becomes (Execution.renewed node' operation names) := by
  refine becomes.trans ⟨rfl, rfl, changes, rfl, fun hybrid => hybrid, fun classical => classical,
    Execution.resources_renewed node' operation names, ?_⟩
  refine assigns_of_occurrences written (fun o there member => ⟨o, List.mem_filter.mpr ⟨there, ?_⟩, rfl, rfl⟩)
  have stays : o.name ∉ names := fun goes => kept o.name goes member
  simpa using stays

end Instruction

/-! ## Lists -/

namespace InstructionList

open Instruction (withoutLinks)

/-- Whether a list may become another one. -/
structure Becomes (list after : InstructionList) : Prop where
  order : after.order ⊆ list.order
  length : after.nodes.length = list.nodes.length
  nodes : ∀ {id : Nat} {node' : Instruction}, after.nodes[id]? = some node' →
    ∃ node, list.nodes[id]? = some node ∧ node.Becomes node'

variable {list after last : InstructionList} {id : Nat} {node : Instruction} {change first : Instruction → Instruction}

theorem Becomes.refl (list : InstructionList) : list.Becomes list :=
  ⟨List.Subset.refl _, rfl, fun found => ⟨_, found, .refl _⟩⟩

theorem Becomes.trans (first : list.Becomes after) (second : after.Becomes last) : list.Becomes last where
  order := List.Subset.trans second.order first.order
  length := second.length.trans first.length
  nodes := by
    intro id node'' found
    obtain ⟨node', there, further⟩ := second.nodes found
    obtain ⟨node, own, becomes⟩ := first.nodes there
    exact ⟨node, own, becomes.trans further⟩

theorem becomes_foldl {α : Type} {step : InstructionList → α → InstructionList}
    (each : ∀ (list : InstructionList) (item : α),
      (∀ {id : Nat} {node : Instruction}, list.nodes[id]? = some node → node.id = id) → list.Becomes (step list item))
    (numbered : ∀ {id : Nat} {node : Instruction}, list.nodes[id]? = some node → node.id = id) (items : List α) :
    list.Becomes (items.foldl step list) := by
  induction items generalizing list with
  | nil => exact .refl list
  | cons item rest ih =>
      have here := each list item numbered
      refine here.trans (ih (fun found => ?_))
      obtain ⟨node, there, becomes⟩ := here.nodes found
      exact becomes.id.trans (numbered there)

theorem SameButLinks.becomes (same : SameButLinks list after) : list.Becomes after where
  order := same.order ▸ List.Subset.refl _
  length := same.length.symm
  nodes := by
    intro id node' found
    obtain ⟨node, there, equal⟩ := same.symm.getElem? found
    exact ⟨node, there, Instruction.becomes_of_links equal⟩

theorem becomes_modify (id : Nat) (becomes : ∀ node, list.nodes[id]? = some node → node.Becomes (change node)) :
    list.Becomes (list.modify id change) where
  order := List.Subset.refl _
  length := List.length_modify _ _ _
  nodes := by
    intro j node' found
    rw [modify, List.getElem?_modify] at found
    obtain ⟨node, there, rfl⟩ := Option.map_eq_some_iff.mp found
    refine ⟨node, there, ?_⟩
    split
    · next here => exact becomes node (here ▸ there)
    · exact .refl node

theorem sameShape_mark (list : InstructionList) (judged : List InstructionLiveness) :
    SameShape list (Liveness.mark list judged) := by
  rw [Liveness.mark]
  induction judged generalizing list with
  | nil => exact ⟨rfl, rfl⟩
  | cons first rest ih =>
      have here : SameShape list (list.modify first.id (fun node => { node with dead := first.dead })) :=
        sameShape_modify list first.id (fun _ _ => rfl)
      have further := ih (list.modify first.id (fun node => { node with dead := first.dead }))
      exact ⟨here.order.trans further.order, here.nodes.trans further.nodes⟩

/-! ## Removals -/

theorem sameButLinks_of_remove (removed : list.remove id = .ok after) :
    SameButLinks { list with order := list.order.filter (fun other => other != id) } after := by
  obtain ⟨spliced, isSpliced, rest⟩ := Result.of_bind_eq_ok removed
  cases rest
  obtain ⟨node, _, rest⟩ := Result.of_bind_eq_ok isSpliced
  cases rest
  have same := sameButLinks_foldl_unlink list id node.resources
  exact same.withOrder (congrArg _ same.order)

/-- Where a removal succeeds, the other instructions stay as they are. -/
theorem sameButLinks_of_removeAll {ids : List Nat} (removed : list.removeAll ids = .ok after) :
    SameButLinks { list with order := list.order.filter (fun other => !ids.contains other) } after := by
  induction ids generalizing list with
  | nil =>
      cases removed
      exact (SameButLinks.refl _).withOrder (by simp)
  | cons id rest ih =>
      rw [removeAll, List.foldlM_cons] at removed
      obtain ⟨next, isNext, further⟩ := Result.of_bind_eq_ok removed
      have same := sameButLinks_of_remove isNext
      refine SameButLinks.trans (same.withOrder ?_) (ih further)
      rw [← same.order, List.filter_filter]
      refine List.filter_congr (fun other _ => ?_)
      rw [List.contains_cons, Bool.not_or, Bool.and_comm]
      rfl

theorem becomes_of_removeAll {ids : List Nat} (removed : list.removeAll ids = .ok after) : list.Becomes after :=
  have same := sameButLinks_of_removeAll removed
  ⟨List.Subset.trans same.becomes.order (List.filter_subset_self _), same.becomes.length, same.becomes.nodes⟩

/-! ## Foldings -/

/-- Whether two lists agree, apart from links, but for a change of the instruction of a number. -/
structure Alters (list after : InstructionList) (id : Nat) (change : Instruction → Instruction) : Prop where
  order : after.order = list.order
  nodes : ∀ j : Nat, (after.nodes[j]?).map withoutLinks =
    (list.nodes[j]?).map (fun node => if j = id then (change node).withoutLinks else node.withoutLinks)

theorem alters_modify (list : InstructionList) (id : Nat) (change : Instruction → Instruction) :
    Alters list (list.modify id change) id change where
  order := rfl
  nodes := by
    intro j
    rw [modify, List.getElem?_modify]
    cases list.nodes[j]? with
    | none => rfl
    | some node =>
        by_cases here : id = j
        · simp [here]
        · simp [here, Ne.symm here]

/-- A further change that does not depend on links. -/
theorem Alters.modify (alters : Alters list after id first) (next : Instruction → Instruction)
    (links : ∀ node, (next node).withoutLinks = next node.withoutLinks) :
    Alters list (after.modify id next) id (fun node => next (first node)) where
  order := alters.order
  nodes := by
    intro j
    have view := congrArg (Option.map (fun node => if j = id then next node else node)) (alters.nodes j)
    rw [Option.map_map, Option.map_map] at view
    rw [(alters_modify after id next).nodes]
    simp only [links]
    refine view.trans (congrArg (fun f => (list.nodes[j]?).map f) ?_)
    funext node
    by_cases here : j = id
    · simp [here]
    · simp [here]

theorem Alters.dropped (alters : Alters list after id first) (resource : Resource) :
    Alters list (after.dropped id resource) id (fun node => (first node).dropOccurrence resource) where
  order := (sameButLinks_unlink after id resource).order.symm.trans alters.order
  nodes := by
    intro j
    have view := congrArg (Option.map (fun node => if id = j then node.dropOccurrence resource else node))
      (alters.nodes j)
    rw [Option.map_map, Option.map_map] at view
    rw [withoutLinks_dropped]
    refine view.trans (congrArg (fun f => (list.nodes[j]?).map f) ?_)
    funext node
    by_cases here : j = id
    · simp [here, Instruction.withoutLinks_dropOccurrence]
    · simp [here, Ne.symm here]

theorem Alters.detachAll (alters : Alters list after id first) (names : List String) :
    Alters list (Folding.detachAll after id names) id (fun node => (first node).dropMemory names) := by
  induction names generalizing after first with
  | nil =>
      simp only [Instruction.dropMemory_nil]
      exact alters
  | cons name rest ih =>
      simp only [Instruction.dropMemory_cons]
      exact ih (alters.dropped (.memory name))

theorem Alters.length (alters : Alters list after id change) : after.nodes.length = list.nodes.length := by
  have same : ∀ j : Nat, j < after.nodes.length ↔ j < list.nodes.length := by
    intro j
    have view := congrArg Option.isSome (alters.nodes j)
    rw [Option.isSome_map, Option.isSome_map, Bool.eq_iff_iff] at view
    simpa using view
  have := same list.nodes.length
  have := same after.nodes.length
  omega

theorem Alters.exists_before (alters : Alters list after id change) (found : list.nodes[id]? = some node) {j : Nat}
    {node' : Instruction} (there : after.nodes[j]? = some node') : ∃ before, list.nodes[j]? = some before ∧
      (node'.withoutLinks = before.withoutLinks ∨
        before = node ∧ node'.withoutLinks = (change node).withoutLinks) := by
  have view := alters.nodes j
  rw [there] at view
  obtain ⟨before, own, equal⟩ := Option.map_eq_some_iff.mp view.symm
  refine ⟨before, own, ?_⟩
  split at equal
  · next here =>
    subst here
    cases found.symm.trans own
    exact .inr ⟨rfl, equal.symm⟩
  · exact .inl equal.symm

theorem Alters.becomes (alters : Alters list after id change) (found : list.nodes[id]? = some node)
    (becomes : node.Becomes (change node)) : list.Becomes after where
  order := alters.order ▸ List.Subset.refl _
  length := alters.length
  nodes := by
    intro j node' there
    obtain ⟨before, own, same | ⟨rfl, changed⟩⟩ := alters.exists_before found there
    · exact ⟨before, own, Instruction.becomes_of_links same⟩
    · exact ⟨before, own, becomes.trans (Instruction.becomes_of_links changed)⟩

end InstructionList

/-! ## Folded instructions -/

namespace Execution

open InstructionList (Alters alters_modify becomes_modify becomes_foldl)

variable {list after : InstructionList} {id : Nat} {node : Instruction}

theorem becomes_noteWritten (written : List Written) (node : Instruction) :
    node.Becomes (Folding.noteWritten written node) := by
  rw [noteWritten_eq]
  refine Instruction.becomes_of_same rfl rfl rfl rfl ?_ rfl
  rw [List.map_map]
  refine List.map_congr_left (fun o _ => ?_)
  obtain ⟨name, use, _⟩ := note_spec written o
  exact Prod.ext name use

theorem alters_renewed (list : InstructionList) (id : Nat) (written : List Written) (operation : Operation)
    (names : List String) :
    Alters list (Folding.detachAll ((list.modify id (Folding.noteWritten written)).modify id
      (fun n => n.setOperation operation)) id names) id
      (fun n => renewed (Folding.noteWritten written n) operation names) :=
  ((alters_modify list id (Folding.noteWritten written)).modify (fun n => n.setOperation operation)
    (fun _ => rfl)).detachAll names

theorem becomes_foldClassical (number : node.id = id) (found : list.nodes[id]? = some node) :
    list.Becomes (Folding.foldClassical list node).1 := by
  rcases foldClassical_cases list node with
    same | ⟨written, same⟩ | ⟨_, _, written, _, _, operation, _, names, same⟩
  · rw [same]
    exact .refl list
  · rw [same]
    exact becomes_modify node.id (fun other _ => becomes_noteWritten written other)
  · rw [same, number]
    refine (alters_renewed list id written _ _).becomes found
      ((becomes_noteWritten written node).renewed ?_ ?_ (fun name goes member => ?_))
    · rw [noteWritten_eq, operation]
      exact .classical _ _ _ _
    · rw [names, noteWritten_eq]
      exact List.Subset.refl _
    · exact not_named_of_unnamed goes (memory_mem_touched_classical.mp (touched_of_written member))

theorem becomes_foldQuantum (number : node.id = id) (found : list.nodes[id]? = some node) (isEntry : Bool) :
    list.Becomes (Folding.foldQuantum list isEntry node).1 := by
  rw [Folding.foldQuantum, number]
  refine becomes_modify id (fun other there => ?_)
  cases found.symm.trans there
  refine Instruction.becomes_of_same rfl rfl rfl rfl rfl ?_
  rw [List.map_map]
  rfl

theorem becomes_settled {node' : Instruction} (becomes : node.Becomes node') (hybrid : node.category.isHybrid = true) :
    node.Becomes (settled node') := by
  obtain ⟨_, operation, _, memory, qubits⟩ := settled_spec node'
  rw [settled] at operation memory qubits ⊢
  split
  · refine ⟨becomes.id, becomes.line, becomes.operation, ?_, fun _ => hybrid, ?_, becomes.resources, becomes.assigns⟩
    · cases category : node.category <;> simp_all [Category.isHybrid, Category.isControl]
    · intro classical
      rw [classical] at hybrid
      cases hybrid
  · exact becomes

theorem becomes_foldGate (number : node.id = id) (found : list.nodes[id]? = some node)
    (hybrid : node.category.isHybrid = true) {gate : String} {params : List Operand} {qubits : List String}
    (operation : node.operation = .gate gate params qubits) :
    list.Becomes (Folding.foldGate list node gate params qubits).1 := by
  unfold Folding.foldGate
  dsimp only
  rw [number]
  split
  · set params' := params.map (Folding.substitute list node)
    have alters := ((alters_modify list id (fun n => n.setOperation (.gate gate params' qubits))).detachAll
      (Folding.unnamed node params')).modify settled withoutLinks_settled
    refine alters.becomes found
      (becomes_settled ((Instruction.Becomes.refl node).renewed ?_ ?_ (fun _ _ => ?_)) hybrid)
    · rw [operation]
      exact .gate _ _ _ _ _ _
    · rw [writtenNames_gate]
      exact List.nil_subset _
    · rw [writtenNames_gate]
      exact List.not_mem_nil
  · exact .refl list

theorem becomes_unmeasured (hybrid : node.category.isHybrid = true) {qubit target : String}
    (operation : node.operation = .measure qubit (some target)) (value : Number) :
    node.Becomes (unmeasured node qubit target value) where
  id := rfl
  line := rfl
  operation := by
    rw [operation]
    exact .measured _ _ _ _
  control := by
    cases category : node.category <;> simp_all [Category.isHybrid, Category.isControl, unmeasured, moved,
      Instruction.dropOccurrence, Instruction.modifyMemory]
  hybrid := fun _ => hybrid
  classical := fun _ => rfl
  resources := by
    rw [resources_unmeasured]
    exact List.filter_sublist
  assigns := by
    refine Instruction.assigns_of_occurrences ?_ (fun o there _ => mem_unmeasured there)
    change writtenNames (.classical "MOVE" [.address target, .literal value]) ⊆ writtenNames node.operation
    rw [writtenNames_move, operation, writtenNames_measure]
    exact List.Subset.refl _

theorem becomes_foldMeasurement (number : node.id = id) (found : list.nodes[id]? = some node)
    (hybrid : node.category.isHybrid = true) (isEntry : Bool) {qubit target : String}
    (operation : node.operation = .measure qubit (some target)) :
    list.Becomes (Folding.foldMeasurement list isEntry node qubit target).1 := by
  unfold Folding.foldMeasurement
  dsimp only
  rw [number]
  split
  · exact .refl list
  · next outcome _ =>
    exact ((alters_modify list id (fun n => moved n target (.ofBool outcome))).dropped (.qubit qubit)).becomes found
      (becomes_unmeasured hybrid operation _)

theorem becomes_foldNode {rule : FoldRule} (number : node.id = id) (found : list.nodes[id]? = some node)
    (accepted : rule.accepts node.category = true) (isEntry : Bool) :
    list.Becomes (Folding.foldNode rule list isEntry node).1 := by
  cases rule with
  | classical => exact becomes_foldClassical number found
  | quantum => exact becomes_foldQuantum number found isEntry
  | keep => exact .refl list
  | hybrid =>
      have hybrid : node.category.isHybrid = true := by
        cases category : node.category <;> rw [category] at accepted <;> revert accepted <;> decide
      rw [Folding.foldNode, Folding.foldHybrid]
      split
      · next operation => exact becomes_foldGate number found hybrid operation
      · next operation => exact becomes_foldMeasurement number found hybrid isEntry operation
      · exact .refl list

theorem becomes_foldList (numbered : ∀ {id : Nat} {node : Instruction}, list.nodes[id]? = some node → node.id = id)
    (index : Nat) : list.Becomes (Folding.foldList index list).1 := by
  rw [Folding.foldList, foldAll_fst]
  refine becomes_foldl (fun list id numbered => ?_) numbered _
  rw [foldStep]
  split
  · next node found =>
    refine becomes_foldNode (numbered found) found ?_ _
    simp [FoldRule.accepts]
  · exact .refl list

/-! ## Steps -/

theorem becomes_propagateList
    (numbered : ∀ {id : Nat} {node : Instruction}, list.nodes[id]? = some node → node.id = id) (index : Nat) :
    list.Becomes (Constants.propagateList index list).1 := by
  rw [Constants.propagateList, InstructionList.annotateAll_fst]
  refine becomes_foldl (fun list id _ => ?_) numbered _
  rw [Constants.annotateAt]
  split
  · next node found =>
    refine becomes_modify id (fun other there => ?_)
    cases found.symm.trans there
    refine Instruction.becomes_of_same rfl rfl rfl rfl ?_ ?_
    · rw [Constants.annotate, List.map_map]
      rfl
    · rw [Constants.annotate, List.map_map]
      rfl
  · exact .refl list

theorem becomes_mark (numbered : ∀ {id : Nat} {node : Instruction}, list.nodes[id]? = some node → node.id = id)
    (judged : List InstructionLiveness) : list.Becomes (Liveness.mark list judged) := by
  refine becomes_foldl (fun list liveness _ => ?_) numbered judged
  exact becomes_modify liveness.id (fun _ _ => Instruction.becomes_of_same rfl rfl rfl rfl rfl rfl)

theorem becomes_reorder {order : List Nat} (installed : list.reorder order = .ok after) : list.Becomes after := by
  obtain ⟨rfl, members, _⟩ := InstructionList.of_reorder_eq_ok installed
  exact ⟨fun id member => (members id).mp member, rfl, fun found => ⟨_, found, .refl _⟩⟩

theorem Evolves.becomes {map : HybridMap} {index : Nat} (evolves : Evolves map index list after)
    (numbered : ∀ {id : Nat} {node : Instruction}, list.nodes[id]? = some node → node.id = id) :
    list.Becomes after := by
  cases evolves with
  | stays => exact .refl list
  | marked judged => exact becomes_mark numbered judged
  | annotated => exact becomes_propagateList numbered index
  | folded => exact becomes_foldList numbered index
  | removed _ removal => exact InstructionList.becomes_of_removeAll removal
  | reordered _ installed => exact becomes_reorder installed

end Execution

end TwoLane
