import TwoLane.Proofs.Liveness.Worked
import TwoLane.Proofs.Program.Lists

/-! # Schedules are valid

Whatever edits and steps have made of new instructions on different lines, the chains of the lists are exact and the
lines stay different. So as long as each instruction runs behind its predecessors, every scheduler gives either nothing
or a new order in which it does so again, with the control instructions in their places.
-/

namespace TwoLane

open Execution (Evolves allEvolve_perform)
open Indexed (Part)

namespace InstructionList

variable {list after : InstructionList} {apart : List Nat} {id : Nat} {order : List Nat}

/-- Whether each instruction of an order comes behind its predecessors. -/
def KeepsChains (list : InstructionList) (order : List Nat) : Prop :=
  ∀ id ∈ order, ∀ other ∈ list.predecessors id, other ∈ order ∧ order.idxOf other < order.idxOf id

instance (list : InstructionList) (order : List Nat) : Decidable (list.KeepsChains order) :=
  inferInstanceAs (Decidable (∀ id ∈ order, ∀ other ∈ list.predecessors id, _))

/-- Whether the chains of a list are exact, but for some instructions set apart, and its instructions have different
    lines. -/
structure Sturdy (list : InstructionList) : Prop where
  threaded : ∃ apart, list.Threaded apart
  lines : (list.nodes.map Instruction.line).Nodup

theorem Sturdy.linesDiffer (sturdy : list.Sturdy) : list.LinesDiffer := by
  intro i j a b _ _ iFound jFound same
  have iInside := (List.getElem?_eq_some_iff.mp iFound).1
  refine (List.getElem?_inj (by simpa using iInside) sturdy.lines).mp ?_
  rw [List.getElem?_map, List.getElem?_map, iFound, jFound, Option.map_some, Option.map_some, same]

theorem Sturdy.valid (sturdy : list.Sturdy) (keeps : list.KeepsChains list.order) : Schedule.Valid list := by
  obtain ⟨apart, threaded⟩ := sturdy.threaded
  exact ⟨threaded.numbered, threaded.inside, threaded.order, List.Subset.refl _,
    fun id member other predecessor => (keeps id member other predecessor).2⟩

theorem keepsChains_of_emission (emission : Schedule.Emission list order) : list.KeepsChains order :=
  fun id member other predecessor =>
    ⟨emission.mem_of_predecessor member predecessor, emission.closed id member other predecessor⟩

/-! ## Lines -/

theorem Becomes.lines (becomes : list.Becomes after) :
    after.nodes.map Instruction.line = list.nodes.map Instruction.line := by
  apply List.ext_getElem (by rw [List.length_map, List.length_map, becomes.length])
  intro i inside _
  rw [List.getElem_map, List.getElem_map]
  rw [List.length_map] at inside
  obtain ⟨node, found, becomes⟩ := becomes.nodes (List.getElem?_eq_getElem inside)
  obtain ⟨_, rfl⟩ := List.getElem?_eq_some_iff.mp found
  exact becomes.line

theorem lines_dropped (list : InstructionList) (id : Nat) (resource : Resource) :
    (list.dropped id resource).nodes.map Instruction.line = list.nodes.map Instruction.line := by
  apply List.ext_getElem?
  intro j
  have view := congrArg (Option.map Instruction.line) (withoutLinks_dropped list id resource j)
  rw [Option.map_map, Option.map_map] at view
  rw [List.getElem?_map, List.getElem?_map]
  refine view.trans ?_
  congr 1
  funext node
  rw [Function.comp_apply]
  split
  · cases resource <;> rfl
  · rfl

theorem Sturdy.evolves (sturdy : list.Sturdy) {map : HybridMap} {index : Nat} (evolves : Evolves map index list after) :
    after.Sturdy := by
  obtain ⟨apart, threaded⟩ := sturdy.threaded
  exact ⟨⟨apart, threaded.evolves evolves⟩, (evolves.becomes threaded.numbered).lines ▸ sturdy.lines⟩

end InstructionList

/-! ## Edits -/

def Edit.apply (edit : Edit) (list : InstructionList) : InstructionList :=
  (EditedList.change ⟨list, []⟩ edit).list

namespace InstructionList

variable {list after : InstructionList} {apart : List Nat}

theorem apply_eq (edit : Edit) (list : InstructionList) (apart : List Nat) :
    edit.apply list = (EditedList.change ⟨list, apart⟩ edit).list := by
  cases edit with
  | spliceOut id =>
      rw [Edit.apply, EditedList.change, EditedList.change]
      cases list.spliceOut id <;> rfl
  | _ => rfl

/-- An edit drops an occurrence, or does to a list what steps may do. -/
theorem Sturdy.apply_cases (sturdy : list.Sturdy) (edit : Edit) :
    list.Becomes (edit.apply list) ∨ ∃ id resource, edit.apply list = list.dropped id resource := by
  obtain ⟨apart, threaded⟩ := sturdy.threaded
  cases edit with
  | remove id =>
      rw [Edit.apply, EditedList.change]
      cases removed : list.remove id with
      | ok after =>
          have becomes := (sameButLinks_of_remove removed).becomes
          exact .inl ⟨List.Subset.trans becomes.order (List.filter_subset_self _), becomes.length, becomes.nodes⟩
      | error _ => exact .inl (.refl list)
  | spliceOut id =>
      rw [Edit.apply, EditedList.change]
      cases spliced : list.spliceOut id with
      | ok after => exact .inl (threaded.spliceOut spliced).2.becomes
      | error _ => exact .inl (.refl list)
  | detach id resource =>
      rw [Edit.apply, EditedList.change]
      cases detached : list.detach id resource with
      | ok after =>
          obtain ⟨_, _, rest⟩ := Result.of_bind_eq_ok detached
          cases rest
          exact .inr ⟨id, resource, rfl⟩
      | error _ => exact .inl (.refl list)
  | reorder order =>
      rw [Edit.apply, EditedList.change]
      cases reordered : list.reorder order with
      | ok after => exact .inl (Execution.becomes_reorder reordered)
      | error _ => exact .inl (.refl list)
  | foldAt rule id isEntry =>
      rw [Edit.apply, EditedList.change]
      cases folded : Folding.foldAt rule list id isEntry with
      | ok result =>
          obtain ⟨node, found, accepted, rfl⟩ := exists_of_foldAt folded
          exact .inl (Execution.becomes_foldNode (threaded.numbered found) found accepted isEntry)
      | error _ => exact .inl (.refl list)
  | foldList index => exact .inl (Execution.becomes_foldList threaded.numbered index)
  | propagateList index => exact .inl (Execution.becomes_propagateList threaded.numbered index)
  | removeControl =>
      rw [Edit.apply, EditedList.change]
      obtain ⟨after, removed, counted⟩ := removeControl_eq_ok threaded.numbered
      refine .inl ?_
      change list.Becomes (((list.removeControl.toOption).map Prod.fst).getD list)
      rw [counted]
      exact becomes_of_removeAll removed

theorem Sturdy.lines_apply (sturdy : list.Sturdy) (edit : Edit) :
    (edit.apply list).nodes.map Instruction.line = list.nodes.map Instruction.line := by
  rcases sturdy.apply_cases edit with becomes | ⟨id, resource, dropped⟩
  · exact becomes.lines
  · rw [dropped]
    exact lines_dropped list id resource

theorem Sturdy.apply (sturdy : list.Sturdy) (edit : Edit) : (edit.apply list).Sturdy := by
  obtain ⟨apart, threaded⟩ := sturdy.threaded
  refine ⟨?_, sturdy.lines_apply edit ▸ sturdy.lines⟩
  rw [apply_eq edit list apart]
  have changed : (EditedList.change ⟨list, apart⟩ edit).list.Threaded (EditedList.change ⟨list, apart⟩ edit).apart :=
    EditedList.threaded_change threaded edit
  exact ⟨_, changed⟩

end InstructionList

/-! ## Lists that edits and steps have changed -/

/-- The workspaces that edits and steps make, one after the other, of lists of new instructions on different lines.
    In between anything may be changed but the lines of instructions and the names and links of their occurrences. -/
inductive Handled : Workspace → Prop where
  | new {parts : List Part} (new : ∀ part ∈ parts, ∀ node ∈ part.nodes, node.IsNew)
      (lines : ∀ part ∈ parts, (part.nodes.map Instruction.line).Nodup) (readout : List String) :
      Handled (.ofLists (parts.map Part.list) readout)
  | edit {state : Workspace} (i : Nat) (edit : Edit) (handled : Handled state) :
      Handled { state with lists := state.lists.modify i edit.apply }
  | adjust {state : Workspace} {i : Nat} {list after : InstructionList} (found : state.lists[i]? = some list)
      (shape : list.SameShape after) (lines : after.nodes.map Instruction.line = list.nodes.map Instruction.line)
      (handled : Handled state) : Handled { state with lists := state.lists.set i after }
  | step {state : Workspace} (step : Step) (handled : Handled state) : Handled (step.perform state).1
  | forget {state : Workspace} (handled : Handled state) : Handled state.forgetHybrids

variable {state : Workspace} {list : InstructionList}

theorem sturdy_new {part : Part} (new : ∀ node ∈ part.nodes, node.IsNew)
    (lines : (part.nodes.map Instruction.line).Nodup) : part.list.Sturdy where
  threaded := ⟨[], Part.threaded_of_isNew new⟩
  lines := by
    have same : part.list.nodes.map Instruction.line = part.nodes.map Instruction.line := by
      apply List.ext_getElem (by rw [List.length_map, List.length_map, part.length_list])
      intro id inside inside'
      rw [List.getElem_map, List.getElem_map]
      rw [List.length_map] at inside inside'
      have found : (InstructionList.ofNodes part.block part.title part.nodes).nodes[id]? = some part.list.nodes[id] :=
        List.getElem?_eq_getElem inside
      obtain ⟨old, there, line, _⟩ := InstructionList.new_ofNodes found
      exact line.trans (congrArg Instruction.line (List.getElem_eq_iff inside' |>.mpr there).symm)
    rw [same]
    exact lines

theorem Handled.sturdy (handled : Handled state) : ∀ list ∈ state.lists, list.Sturdy := by
  induction handled with
  | new new lines _ =>
      intro list member
      obtain ⟨part, there, rfl⟩ := List.mem_map.mp member
      exact sturdy_new (new part there) (lines part there)
  | @edit state i edit _ ih =>
      intro list member
      obtain ⟨j, found⟩ := List.mem_iff_getElem?.mp member
      rw [List.getElem?_modify] at found
      obtain ⟨before, there, rfl⟩ := Option.map_eq_some_iff.mp found
      have sturdy := ih before (List.mem_of_getElem? there)
      split
      · exact sturdy.apply edit
      · exact sturdy
  | @adjust state i list after found shape lines _ ih =>
      intro other member
      rcases List.mem_or_eq_of_mem_set member with old | rfl
      · exact ih other old
      · have sturdy := ih list (List.mem_of_getElem? found)
        obtain ⟨apart, threaded⟩ := sturdy.threaded
        exact ⟨⟨apart, threaded.sameShape shape⟩, lines ▸ sturdy.lines⟩
  | @step state step _ ih =>
      intro after member
      obtain ⟨list, there, _, _, evolves⟩ := (allEvolve_perform step state).exists_mem member
      exact (ih list there).evolves evolves
  | forget _ ih => exact ih

/-- Whether an order is a new one of the whole list in which each instruction comes behind its predecessors and control
    instructions keep their places. -/
structure Reschedules (list : InstructionList) (order : List Nat) : Prop where
  perm : list.order.Perm order
  differs : order ≠ list.order
  keeps : list.KeepsChains order
  inPlace : ∀ {i id : Nat} {node : Instruction}, list.order[i]? = some id → list.nodes[id]? = some node →
    node.category.isControl = true → order[i]? = some id

theorem reschedules_of_arranges {order : List Nat} (arranges : Schedule.Arranges list order)
    (differs : order ≠ list.order) : Reschedules list order where
  perm := arranges.perm
  differs := differs
  keeps := InstructionList.keepsChains_of_emission arranges.emission
  inPlace := by
    intro i id node here found control
    refine (arranges.inPlace here ?_).1
    rw [Schedule.steers, found]
    exact control

/-- In a list that edits and steps have made, and whose instructions run behind their predecessors, all schedulers give
    nothing or a valid new order; the balanced one succeeds with the hybrid map found for the list. -/
theorem schedules_are_valid (handled : Handled state) (member : list ∈ state.lists)
    (keeps : list.KeepsChains list.order) :
    (Schedule.earlyQuantum list = [] ∨ Reschedules list (Schedule.earlyQuantum list)) ∧
    (Schedule.lateQuantum list = [] ∨ Reschedules list (Schedule.lateQuantum list)) ∧
    ∃ order, Schedule.balanced list (HybridMap.ofList list) = .ok order ∧ (order = [] ∨ Reschedules list order) := by
  have sturdy := handled.sturdy list member
  have valid := sturdy.valid keeps
  refine ⟨?_, ?_, ?_⟩
  · exact (Schedule.earlyQuantum_arranges valid).imp_right (fun new => reschedules_of_arranges new.1 new.2)
  · exact (Schedule.lateQuantum_arranges valid).imp_right (fun new => reschedules_of_arranges new.1 new.2)
  · obtain ⟨order, given, arranged⟩ := Schedule.balanced_arranges valid sturdy.linesDiffer
      (HybridMap.holds_ofList valid sturdy.linesDiffer)
    exact ⟨order, given, arranged.imp_right (fun new => reschedules_of_arranges new.1 new.2)⟩

def measuring : List Part :=
  [⟨0, "start",
    [.ofOperation 0 .classical (.classical "MOVE" [.address "a", .literal (.ofReal 1)]),
      .ofOperation 1 .control (.label "top"),
      .ofOperation 2 .classical (.classical "ADD" [.address "b", .address "a"]),
      .ofOperation 3 .quantum (.gate "X" [] ["0"]),
      .ofOperation 4 .quantumToClassical (.measure "0" (some "r")),
      .ofOperation 5 .quantum (.gate "H" [] ["1"])], [0]⟩]

theorem isNew_measuring : ∀ part ∈ measuring, ∀ node ∈ part.nodes, node.IsNew := by
  intro part partIn node member
  cases List.mem_singleton.mp partIn
  simp only [List.mem_cons, List.not_mem_nil, or_false] at member
  rcases member with rfl | rfl | rfl | rfl | rfl | rfl <;> exact Instruction.isNew_ofOperation _ _ _

/-- The list once quantum work is early and the first gate is taken off its chain. -/
def measuringEdited : Workspace :=
  { (Step.earlyQuantum.perform (.ofLists (measuring.map Part.list) [])).1 with
    lists := (Step.earlyQuantum.perform (.ofLists (measuring.map Part.list) [])).1.lists.modify 0
      (Edit.apply (.spliceOut 3)) }

theorem handled_measuring : Handled measuringEdited :=
  .edit 0 (.spliceOut 3) (.step .earlyQuantum (.new isNew_measuring (by decide +kernel) []))

theorem keepsChains_measuring : ∀ list ∈ measuringEdited.lists, list.KeepsChains list.order := by
  decide +kernel

theorem measuring_schedules_are_valid :
    ∃ list ∈ measuringEdited.lists,
      (Schedule.earlyQuantum list = [] ∨ Reschedules list (Schedule.earlyQuantum list)) ∧
      (Schedule.lateQuantum list = [] ∨ Reschedules list (Schedule.lateQuantum list)) ∧
      ∃ order, Schedule.balanced list (HybridMap.ofList list) = .ok order ∧
        (order = [] ∨ Reschedules list order) := by
  have inside : 0 < measuringEdited.lists.length := by decide +kernel
  have member := List.getElem_mem inside
  exact ⟨_, member, schedules_are_valid handled_measuring member (keepsChains_measuring _ member)⟩

end TwoLane
