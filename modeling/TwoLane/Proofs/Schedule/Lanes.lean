import TwoLane.Proofs.Schedule.Slowdown
import TwoLane.Proofs.Schedule.Validity

/-! # Lanes of edited lists

Neither edits nor steps give an instruction a second occurrence of a resource, so a link to the front always lies on the
chain of a resource that both instructions touch. Where quantum instructions touch no memory and classical ones no qubit,
the lanes of an edited list are therefore apart, too.
-/

namespace TwoLane

namespace InstructionList

variable {list after : InstructionList} {apart : List Nat} {id other : Nat}

/-- Whether no instruction touches a resource twice. -/
def TouchOnce (list : InstructionList) : Prop :=
  ∀ node ∈ list.nodes, node.resources.Nodup

theorem TouchOnce.becomes (once : list.TouchOnce) (becomes : list.Becomes after) : after.TouchOnce := by
  intro node' member
  obtain ⟨id, found⟩ := List.mem_iff_getElem?.mp member
  obtain ⟨node, there, becomes⟩ := becomes.nodes found
  exact (once node (List.mem_of_getElem? there)).sublist becomes.resources

theorem TouchOnce.dropped (once : list.TouchOnce) (id : Nat) (resource : Resource) :
    (list.dropped id resource).TouchOnce := by
  intro node' member
  obtain ⟨j, found⟩ := List.mem_iff_getElem?.mp member
  obtain ⟨node, there, -, resources⟩ := getElem?_dropped found
  have distinct := once node (List.mem_of_getElem? there)
  rw [resources]
  split
  · exact distinct.filter _
  · exact distinct

theorem TouchOnce.sameShape (once : list.TouchOnce) (same : SameShape list after) : after.TouchOnce := by
  intro node' member
  obtain ⟨id, found⟩ := List.mem_iff_getElem?.mp member
  obtain ⟨node, there, equal⟩ := same.symm.getElem? found
  rw [← Instruction.resources_shape, equal, Instruction.resources_shape]
  exact once node (List.mem_of_getElem? there)

theorem TouchOnce.apply (once : list.TouchOnce) (sturdy : list.Sturdy) (edit : Edit) : (edit.apply list).TouchOnce := by
  rcases sturdy.apply_cases edit with becomes | ⟨id, resource, same⟩
  · exact once.becomes becomes
  · rw [same]
    exact once.dropped id resource

theorem Threaded.shared_of_predecessor (threaded : list.Threaded apart) (once : list.TouchOnce)
    (predecessor : other ∈ list.predecessors id) : other ∈ list.order ∧
      ∃ resource, list.holdsAt resource other = true ∧ list.holdsAt resource id = true := by
  obtain ⟨node, found, previous⟩ := mem_predecessors.mp predecessor
  obtain ⟨resource, links, linked, there⟩ := (mem_previous (once node (List.mem_of_getElem? found))).mp previous
  have own : list.linksAt resource id = some links := by
    rw [linksAt, found]
    exact linked
  have holds : list.isOn apart resource id = true := by
    by_contra off
    rw [threaded.links.loose resource id (by simpa using off) links own] at there
    cases there
  rw [threaded.links.linked resource id holds links own] at there
  have holds' := (Nearest.below?_eq_some.mp (Option.mem_toList.mp there)).2.1
  have spread : ∀ {i}, list.isOn apart resource i = true → i ∈ list.order ∧ list.holdsAt resource i = true := by
    intro i on
    obtain ⟨holder, -⟩ := Bool.and_eq_true_iff.mp on
    exact ⟨(isHolder_iff.mp holder).1, (Bool.and_eq_true_iff.mp holder).2⟩
  exact ⟨(spread holds').1, resource, (spread holds').2, (spread holds).2⟩

/-- Whether the quantum instructions that run touch no memory, and the classical ones no qubit. -/
def KeepsLanes (list : InstructionList) : Prop :=
  ∀ id ∈ list.order, ∀ node ∈ list.nodes[id]?,
    (node.category = .quantum → node.memory = []) ∧ (node.category = .classical → node.qubits = [])

instance (list : InstructionList) : Decidable list.KeepsLanes :=
  inferInstanceAs (Decidable (∀ id ∈ list.order, ∀ node ∈ list.nodes[id]?, _))

theorem KeepsLanes.lanesApart (keep : list.KeepsLanes) (sturdy : list.Sturdy) (once : list.TouchOnce) :
    Schedule.LanesApart list := by
  obtain ⟨apart, threaded⟩ := sturdy.threaded
  refine Schedule.lanesApart_of_shared (fun id _ other predecessor => threaded.shared_of_predecessor once predecessor)
    (fun {id node} running found => ?_)
  obtain ⟨quantum, classical⟩ := keep id running node found
  refine ⟨fun category name member => ?_, fun category q member => ?_⟩
  · simp [Instruction.resources, quantum category] at member
  · simp [Instruction.resources, classical category] at member

end InstructionList

variable {state : Workspace} {list : InstructionList}

/-- However lists of new instructions are edited and changed by steps, no instruction touches a resource twice. -/
theorem Handled.touchOnce (handled : Handled state) : ∀ list ∈ state.lists, list.TouchOnce := by
  induction handled with
  | new new _ _ =>
      intro list member
      obtain ⟨part, there, rfl⟩ := List.mem_map.mp member
      intro node inside
      obtain ⟨id, found⟩ := List.mem_iff_getElem?.mp inside
      exact (Indexed.Part.chained_of_isNew (new part there)).distinct found
  | @edit state i edit handled ih =>
      intro list member
      obtain ⟨j, found⟩ := List.mem_iff_getElem?.mp member
      rw [List.getElem?_modify] at found
      obtain ⟨before, there, rfl⟩ := Option.map_eq_some_iff.mp found
      have own := List.mem_of_getElem? there
      split
      · exact (ih before own).apply (handled.sturdy before own) edit
      · exact ih before own
  | @adjust state i list after found shape _ _ ih =>
      intro other member
      rcases List.mem_or_eq_of_mem_set member with old | rfl
      · exact ih other old
      · exact (ih list (List.mem_of_getElem? found)).sameShape shape
  | @step state step handled ih =>
      intro after member
      obtain ⟨list, there, _, _, evolves⟩ := (Execution.allEvolve_perform step state).exists_mem member
      obtain ⟨apart, threaded⟩ := (handled.sturdy list there).threaded
      exact (ih list there).becomes (evolves.becomes threaded.numbered)
  | forget _ ih => exact ih

end TwoLane
