import TwoLane.Proofs.Chain.Threads
import TwoLane.Proofs.Execution.Evolution
import TwoLane.Proofs.Execution.Folding.Settled
import TwoLane.Proofs.Execution.NewLists
import TwoLane.Proofs.Liveness.Relied

/-! # Coherent lists

In a coherent list all that is noted is founded, and what instructions touch fits what they do. New lists are coherent,
and every step keeps lists coherent, since none of them takes away what a noted fact follows from. So wherever a run has
come, one round of propagation and folding notes and settles everything, and a second one finds nothing to do.
-/

namespace TwoLane.Execution

open InstructionList (SameButLinks SameButFacts ofNodes)
open Liveness (deadIds judge)

variable {whole : Prop} {isEntry : Bool} {list after : InstructionList} {id index : Nat} {node node' : Instruction}
  {outlook : Outlook}

/-- Whether all that is noted in a list is founded, and the occurrences of its instructions fit their operations. -/
structure Coherent (isEntry : Bool) (list : InstructionList) : Prop where
  grounded : Grounded False isEntry list
  fit : AllFit list

/-! ## New lists -/

theorem fits_ofNodes {block : Nat} {title : String} {nodes : List Instruction} (new : ∀ node ∈ nodes, node.IsNew)
    (found : (ofNodes block title nodes).nodes[id]? = some node) : Fits node := by
  have touches := InstructionList.complete_ofNodes new found
  refine ⟨fun o member => ((touches.names o.name).mp (List.mem_map_of_mem member)).2, fun o member writes => ?_⟩
  have use : o.use = .assignment := by simpa [MemoryOccurrence.isAssignment] using writes
  by_cases named : ∃ a ∈ node.operation.memoryAccesses, a.name = o.name
  · obtain ⟨a, own, name, assigns⟩ := (touches.named o member named).mp use
    exact ⟨o.name, Indexed.mem_writtenNames.mpr ⟨a, own, name, assigns⟩, Memory.mayOverlap_self _⟩
  · obtain ⟨a, own, overlaps, assigns⟩ := (touches.implied o member named).mp use
    exact ⟨a.name, Indexed.mem_writtenNames.mpr ⟨a, own, rfl, assigns⟩, overlaps⟩

theorem coherent_ofNodes {block : Nat} {title : String} {nodes : List Instruction} (new : ∀ node ∈ nodes, node.IsNew)
    (isEntry : Bool) : Coherent isEntry (ofNodes block title nodes) where
  grounded := fun _ _ _ found => .of_blank (InstructionList.values_ofNodes new found) (states_ofNodes new found) _
  fit := fun _ _ _ found => fits_ofNodes new found

/-! ## Marks and orders -/

def notes (node : Instruction) : Operation × List MemoryOccurrence × List QubitOccurrence :=
  (node.operation, node.memory, node.qubits)

theorem founded_of_notes (founded : Founded whole outlook node) (same : notes node' = notes node) :
    Founded whole outlook node' := by
  simp only [notes, Prod.mk.injEq] at same
  obtain ⟨operation, memory, qubits⟩ := same
  constructor
  · rw [operation, memory]
    exact founded.memory
  · rw [operation, qubits]
    exact founded.after
  · rw [operation, qubits]
    exact founded.before
  · rw [qubits]
    exact founded.reset

/-- Whether two lists have the same notes on the same running instructions, whatever their order. -/
structure SameNotes (list after : InstructionList) : Prop where
  order : ∀ id, id ∈ after.order ↔ id ∈ list.order
  nodes : after.nodes.map notes = list.nodes.map notes

theorem SameNotes.getElem? (same : SameNotes list after) (i : Nat) : (after.nodes[i]? = none ∧ list.nodes[i]? = none) ∨
    ∃ node node', after.nodes[i]? = some node' ∧ list.nodes[i]? = some node ∧ notes node' = notes node := by
  have view := congrArg (fun views : List _ => views[i]?) same.nodes
  simp only [List.getElem?_map] at view
  cases here : after.nodes[i]? with
  | none =>
      rw [here, Option.map_none, eq_comm, Option.map_eq_none_iff] at view
      exact .inl ⟨rfl, view⟩
  | some node' =>
      rw [here, Option.map_some, eq_comm, Option.map_eq_some_iff] at view
      obtain ⟨node, there, equal⟩ := view
      exact .inr ⟨node, node', rfl, there, equal.symm⟩

theorem SameNotes.isHolder (same : SameNotes list after) (r : Resource) : after.isHolder r = list.isHolder r := by
  funext i
  rw [Bool.eq_iff_iff, InstructionList.isHolder_iff, InstructionList.isHolder_iff, same.order]
  rcases same.getElem? i with ⟨none', none⟩ | ⟨node, node', found', found, equal⟩
  · simp [none', none]
  · have resources : node'.resources = node.resources := by
      simp only [notes, Prod.mk.injEq] at equal
      rw [Instruction.resources, Instruction.resources, equal.2.1, equal.2.2]
    simp [found', found, resources]

theorem SameNotes.outlook_eq (same : SameNotes list after) (isEntry : Bool) (id : Nat) :
    after.outlook isEntry id = list.outlook isEntry id := by
  have left : ∀ {α : Type} (leaves : Instruction → Option α), (∀ n n', notes n' = notes n → leaves n' = leaves n) →
      ∀ r start, after.lookFor r leaves start id = list.lookFor r leaves start id := by
    intro α leaves only r start
    rw [InstructionList.lookFor, InstructionList.lookFor, same.isHolder]
    refine Nearest.look_congr (fun i _ _ => ?_)
    rcases same.getElem? i with ⟨none', none⟩ | ⟨node, node', found', found, equal⟩
    · rw [none', none]
    · rw [found', found, Option.bind_some, Option.bind_some, only node node' equal]
  have memory : ∀ n n' : Instruction, notes n' = notes n → n'.memory = n.memory :=
    fun n n' equal => congrArg (fun view => view.2.1) equal
  have qubits : ∀ n n' : Instruction, notes n' = notes n → n'.qubits = n.qubits :=
    fun n n' equal => congrArg (fun view => view.2.2) equal
  refine Outlook.ext (funext fun name => left _ (fun n n' equal => ?_) _ _)
    (funext fun q => left _ (fun n n' equal => ?_) _ _)
  · rw [Instruction.leavesMemory, Instruction.leavesMemory, Instruction.memory?, Instruction.memory?, memory n n' equal]
  · rw [Instruction.leavesQubit, Instruction.leavesQubit, Instruction.qubit?, Instruction.qubit?, qubits n n' equal]

theorem Coherent.of_sameNotes (coherent : Coherent isEntry list) (same : SameNotes list after) :
    Coherent isEntry after where
  grounded := by
    intro id runs node' found'
    rcases same.getElem? id with ⟨none, _⟩ | ⟨node, _, here, found, equal⟩
    · cases found'.symm.trans none
    · cases found'.symm.trans here
      rw [same.outlook_eq]
      exact founded_of_notes (coherent.grounded id ((same.order id).mp runs) node found) equal
  fit := by
    intro id runs node' found'
    rcases same.getElem? id with ⟨none, _⟩ | ⟨node, _, here, found, equal⟩
    · cases found'.symm.trans none
    · cases found'.symm.trans here
      simp only [notes, Prod.mk.injEq] at equal
      exact (coherent.fit id ((same.order id).mp runs) node found).congr equal.1 (by rw [equal.2.1])

theorem sameNotes_mark (list : InstructionList) (judged : List InstructionLiveness) :
    SameNotes list (Liveness.mark list judged) := by
  rw [Liveness.mark]
  induction judged generalizing list with
  | nil => exact ⟨fun _ => Iff.rfl, rfl⟩
  | cons first rest ih =>
      have further := ih (list.modify first.id (fun node => { node with dead := first.dead }))
      refine ⟨further.order, further.nodes.trans ?_⟩
      apply List.ext_getElem?
      intro i
      rw [InstructionList.modify, List.getElem?_map, List.getElem?_map, List.getElem?_modify]
      cases list.nodes[i]? with
      | none => rfl
      | some node => by_cases here : first.id = i <;> simp [here, notes]

theorem sameNotes_reorder {order : List Nat} (installed : list.reorder order = .ok after) : SameNotes list after := by
  obtain ⟨rfl, members, _⟩ := InstructionList.of_reorder_eq_ok installed
  exact ⟨members, rfl⟩

/-! ## Propagation and folding -/

theorem Grounded.partly (grounded : Grounded whole isEntry list) : Grounded False isEntry list := by
  intro id runs node found
  have founded := grounded id runs node found
  exact ⟨fun o member => (founded.memory o member).partly, fun o member => (founded.after o member).partly,
    fun plain o member => (founded.before plain o member).partly, False.elim⟩

theorem AllFit.of_sameButFacts (fit : AllFit list) (same : SameButFacts list after) : AllFit after := by
  intro id runs node found
  obtain ⟨before, there, equal⟩ := same.symm.getElem? found
  have operation := congrArg Instruction.operation equal
  have memory := congrArg (fun n : Instruction => n.memory.map (fun o => (o.name, o.use))) equal
  simp only [Instruction.withoutFacts, List.map_map, Function.comp_def] at operation memory
  exact (fit id (same.order ▸ runs) before there).congr operation memory

theorem Coherent.propagated (coherent : Coherent (index == 0) list) (ordered : Ordered list) :
    Grounded True (index == 0) (Constants.propagateList index list).1 ∧
      AllFit (Constants.propagateList index list).1 := by
  refine ⟨coherent.grounded.propagated ordered, ?_⟩
  rw [Constants.propagateList, InstructionList.annotateAll_fst]
  exact coherent.fit.of_sameButFacts (InstructionList.sameButFacts_foldl _ list list.order)

/-! ## Removals -/

theorem LeftOf.allFit {keep : Nat → Bool} (left : LeftOf list after keep) (fit : AllFit list) : AllFit after := by
  intro id runs node found
  rw [left.order] at runs
  obtain ⟨before, there, same⟩ := left.same.symm.getElem? found
  exact (fit id (List.mem_filter.mp runs).1 before there).of_links same

theorem leftOf_removeAll (chained : list.Chained) {ids : List Nat} (distinct : ids.Nodup) (running : ids ⊆ list.order)
    (removal : list.removeAll ids = .ok after) : LeftOf list after (fun id => !ids.contains id) := by
  obtain ⟨after', removal', same, chained'⟩ := chained.removeAll distinct running
  cases removal.symm.trans removal'
  exact ⟨same, chained'⟩

theorem Coherent.removed (coherent : Coherent isEntry list) (ordered : Ordered list) {ids : List Nat}
    (doomed : Doomed list ids) (removal : list.removeAll ids = .ok after) : Coherent isEntry after := by
  have chained := ordered.chained
  rcases doomed with rfl | ⟨readout, live, rfl⟩
  · have left := leftOf_removeAll chained chained.order (List.Subset.refl _) removal
    refine ⟨fun id runs => ?_, left.allFit coherent.fit⟩
    obtain ⟨own, stays⟩ := List.mem_filter.mp (left.order ▸ runs)
    simp [own] at stays
  · have ids : list.running.map Instruction.id = list.order :=
      InstructionList.map_id_running chained.numbered chained.inside
    have left : LeftOf list after (stays readout list live) :=
      leftOf_removeAll chained (nodup_deadIds (ids ▸ chained.order)) (ids ▸ Liveness.deadIds_subset _) removal
    exact ⟨left.grounded ordered coherent.grounded, left.allFit coherent.fit⟩

/-! ## Runs -/

/-- Whatever a step makes of a list, it stays coherent. -/
theorem Coherent.evolves {map : HybridMap} (coherent : Coherent (index == 0) list) (ordered : Ordered list)
    (evolves : Evolves map index list after) : Coherent (index == 0) after := by
  cases evolves with
  | stays => exact coherent
  | marked judged => exact coherent.of_sameNotes (sameNotes_mark list judged)
  | annotated =>
      obtain ⟨grounded, fit⟩ := coherent.propagated ordered
      exact ⟨grounded.partly, fit⟩
  | folded =>
      have passing := passing_foldList ordered coherent.grounded coherent.fit
      exact ⟨passing.grounded, passing.fit⟩
  | removed doomed removal => exact coherent.removed ordered doomed removal
  | reordered _ installed => exact coherent.of_sameNotes (sameNotes_reorder installed)

def AllCoherent (lists : List InstructionList) : Prop :=
  ∀ i list, lists[i]? = some list → Coherent (i == 0) list

variable {state next final : Workspace} {steps : List Step}

theorem AllCoherent.dispatch (coherent : AllCoherent state.lists) (sound : Sound state) {step : Step}
    {report : StepReport} (dispatched : step.dispatch state = .ok (next, report)) : AllCoherent next.lists := by
  intro i after here
  obtain ⟨list, found, evolves⟩ := (allEvolve_dispatch dispatched).exists_before here
  exact (coherent i list found).evolves (sound.regular list (List.mem_of_getElem? found)).ordered evolves

theorem AllCoherent.dispatchAll (coherent : AllCoherent state.lists) (sound : Sound state) {reports : List StepReport}
    (dispatched : Workspace.dispatchAll steps state = .ok (final, reports)) : AllCoherent final.lists := by
  refine (dispatchAll_induction (motive := fun state => Sound state ∧ AllCoherent state.lists) ?_ ⟨sound, coherent⟩
    dispatched).2
  exact fun ⟨sound, coherent⟩ first => ⟨sound.dispatch first, coherent.dispatch sound first⟩

end TwoLane.Execution
