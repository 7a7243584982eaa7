import TwoLane.Optimize.Step
import TwoLane.Proofs.Execution.Steps
import TwoLane.Proofs.Result

/-! # What a step does to a list

A step changes each list on its own: it marks, annotates or folds its instructions, removes dead ones, or installs an
order that a scheduler gives. Where it fails on its way the lists behind stay as they are.
-/

namespace TwoLane.Execution

/-- Whether an order is one that a scheduler gives for a list and a hybrid map. -/
inductive Scheduled (map : HybridMap) (list : InstructionList) : List Nat → Prop where
  | early : Scheduled map list (Schedule.earlyQuantum list)
  | late : Scheduled map list (Schedule.lateQuantum list)
  | balanced {order : List Nat} (given : Schedule.balanced list map = .ok order) : Scheduled map list order

/-- Whether instructions are all of a list or those that were judged dead. -/
def Doomed (list : InstructionList) (ids : List Nat) : Prop :=
  ids = list.order ∨ ∃ readout live, ids = Liveness.deadIds (Liveness.judge readout live list.running).2

/-- What a step may make of the list at a position, with a hybrid map for it. -/
inductive Evolves (map : HybridMap) (index : Nat) (list : InstructionList) : InstructionList → Prop where
  | stays : Evolves map index list list
  | marked (judged : List InstructionLiveness) : Evolves map index list (Liveness.mark list judged)
  | annotated : Evolves map index list (Constants.propagateList index list).1
  | folded : Evolves map index list (Folding.foldList index list).1
  | removed {ids : List Nat} {after : InstructionList} (doomed : Doomed list ids)
      (removal : list.removeAll ids = .ok after) : Evolves map index list after
  | reordered {order : List Nat} {after : InstructionList} (scheduled : Scheduled map list order)
      (installed : list.reorder order = .ok after) : Evolves map index list after

def AllEvolve (state : Workspace) (lists' : List InstructionList) : Prop :=
  lists'.length = state.lists.length ∧ ∀ {i : Nat} {list : InstructionList}, state.lists[i]? = some list →
    ∃ after, lists'[i]? = some after ∧ Evolves ((state.hybrids[i]?).getD []) i list after

variable {state : Workspace} {lists lists' : List InstructionList} {list after : InstructionList}

theorem AllEvolve.refl (state : Workspace) : AllEvolve state state.lists :=
  ⟨rfl, fun found => ⟨_, found, .stays⟩⟩

theorem AllEvolve.exists_before (evolve : AllEvolve state lists') {i : Nat} (found : lists'[i]? = some after) :
    ∃ list, state.lists[i]? = some list ∧ Evolves ((state.hybrids[i]?).getD []) i list after := by
  have inside := (List.getElem?_eq_some_iff.mp found).1
  rw [evolve.1] at inside
  obtain ⟨after', here, evolves⟩ := evolve.2 (List.getElem?_eq_getElem inside)
  cases found.symm.trans here
  exact ⟨_, List.getElem?_eq_getElem inside, evolves⟩

theorem AllEvolve.exists_mem (evolve : AllEvolve state lists') (member : after ∈ lists') :
    ∃ list ∈ state.lists, ∃ map index, Evolves map index list after := by
  obtain ⟨i, found⟩ := List.mem_iff_getElem?.mp member
  obtain ⟨list, there, evolves⟩ := evolve.exists_before found
  exact ⟨list, List.mem_of_getElem? there, _, i, evolves⟩

theorem allEvolve_zipIdx (pass : Nat → InstructionList → InstructionList)
    (evolves : ∀ {i list}, Evolves ((state.hybrids[i]?).getD []) i list (pass i list)) :
    AllEvolve state (state.lists.zipIdx.map (fun entry => pass entry.2 entry.1)) := by
  refine ⟨by rw [List.length_map, List.length_zipIdx], fun {i list} found => ⟨pass i list, ?_, evolves⟩⟩
  rw [List.getElem?_map, List.getElem?_zipIdx, found, Nat.zero_add]
  rfl

theorem allEvolve_mark (state : Workspace) : AllEvolve state state.markLiveness.1.lists := by
  have lists : state.markLiveness.1.lists = state.lists.map (fun list => Liveness.mark list
      (Liveness.judge state.readout (Liveness.behind state.readout (Liveness.fixpoint state.readout state.lists) list)
        list.running).2) := map_zip_map _ _ _
  rw [lists]
  refine ⟨List.length_map _, fun {i list} found => ?_⟩
  rw [List.getElem?_map, found]
  exact ⟨_, rfl, .marked _⟩

/-- What a removal takes from the lists from a position on, also where it fails. -/
theorem removeDeadFrom_spec (dead : DeadCode) (index : Nat) (lists : List InstructionList) :
    (Workspace.removeDeadFrom dead index lists).1.length = lists.length ∧
      ∀ {i : Nat} {list : InstructionList}, lists[i]? = some list → ∃ after,
        (Workspace.removeDeadFrom dead index lists).1[i]? = some after ∧
          (after = list ∨ list.removeAll (dead.toRemove (index + i) list) = .ok after) := by
  induction lists generalizing index with
  | nil => exact ⟨rfl, fun found => by simp at found⟩
  | cons first rest ih =>
      obtain ⟨length, each⟩ := ih (index + 1)
      have shift : ∀ i, index + 1 + i = index + (i + 1) := by omega
      rw [Workspace.removeDeadFrom]
      dsimp only
      split
      · refine ⟨congrArg Nat.succ length, fun {i list} found => ?_⟩
        cases i with
        | zero =>
            cases found
            exact ⟨first, rfl, .inl rfl⟩
        | succ i => exact shift i ▸ each found
      · split
        · exact ⟨rfl, fun found => ⟨_, found, .inl rfl⟩⟩
        · next removed removal =>
          refine ⟨congrArg Nat.succ length, fun {i list} found => ?_⟩
          cases i with
          | zero =>
              cases found
              exact ⟨removed, rfl, .inr removal⟩
          | succ i => exact shift i ▸ each found

theorem doomed_toRemove {readout : List String} {i : Nat} (found : lists[i]? = some list) :
    Doomed list ((DeadCode.find lists readout).toRemove i list) := by
  rw [DeadCode.toRemove]
  split
  · exact .inl rfl
  · refine .inr ⟨readout, Liveness.behind readout (Liveness.fixpoint readout lists) list, ?_⟩
    simp [DeadCode.find, Liveness.analyse, found]

theorem allEvolve_removeDead (state : Workspace) : AllEvolve state state.removeDead.1.lists := by
  obtain ⟨length, each⟩ := removeDeadFrom_spec (DeadCode.find state.lists state.readout) 0 state.lists
  refine ⟨length, fun {i list} found => ?_⟩
  obtain ⟨after, here, result⟩ := each found
  rw [Nat.zero_add] at result
  refine ⟨after, here, ?_⟩
  rcases result with rfl | removal
  · exact .stays
  · exact .removed (doomed_toRemove found) removal

/-- What a reordering makes of the lists from a position on, also where it fails. -/
theorem reorderFrom_spec (schedule : Nat → InstructionList → Except OptimizeError (List Nat)) (index : Nat)
    (lists : List InstructionList) :
    (Workspace.reorderFrom schedule index lists).1.length = lists.length ∧
      ∀ {i : Nat} {list : InstructionList}, lists[i]? = some list → ∃ after,
        (Workspace.reorderFrom schedule index lists).1[i]? = some after ∧
          (after = list ∨ ∃ order, schedule (index + i) list = .ok order ∧ list.reorder order = .ok after) := by
  induction lists generalizing index with
  | nil => exact ⟨rfl, fun found => by simp at found⟩
  | cons first rest ih =>
      obtain ⟨length, each⟩ := ih (index + 1)
      have shift : ∀ i, index + 1 + i = index + (i + 1) := by omega
      rw [Workspace.reorderFrom]
      split
      · exact ⟨rfl, fun found => ⟨_, found, .inl rfl⟩⟩
      · next installed accepted =>
        refine ⟨congrArg Nat.succ length, fun {i list} found => ?_⟩
        cases i with
        | zero =>
            cases found
            obtain ⟨order, given, isInstalled⟩ := Result.of_bind_eq_ok accepted
            refine ⟨installed.1, rfl, ?_⟩
            rw [Workspace.installOrder] at isInstalled
            split at isInstalled
            · cases isInstalled
              exact .inl rfl
            · obtain ⟨reordered, lifted, rest⟩ := Result.of_bind_eq_ok isInstalled
              cases rest
              refine .inr ⟨order, given, ?_⟩
              cases isReordered : first.reorder order with
              | ok _ =>
                  rw [isReordered] at lifted
                  cases lifted
                  rfl
              | error _ =>
                  rw [isReordered] at lifted
                  cases lifted
        | succ i => exact shift i ▸ each found

theorem allEvolve_reorder {schedule : Nat → InstructionList → Except OptimizeError (List Nat)}
    (gives : ∀ {i list order}, schedule i list = .ok order → Scheduled ((state.hybrids[i]?).getD []) list order) :
    AllEvolve state (Workspace.reorderWith schedule state).1.lists := by
  obtain ⟨length, each⟩ := reorderFrom_spec schedule 0 state.lists
  refine ⟨length, fun {i list} found => ?_⟩
  obtain ⟨after, here, result⟩ := each found
  rw [Nat.zero_add] at result
  refine ⟨after, here, ?_⟩
  rcases result with rfl | ⟨order, given, installed⟩
  · exact .stays
  · exact .reordered (gives given) installed

theorem allEvolve_perform (step : Step) (state : Workspace) : AllEvolve state (step.perform state).1.lists := by
  cases step with
  | liveVariables => exact allEvolve_mark state
  | constantPropagation =>
      have lists : (Constants.propagate state.lists).1 =
          state.lists.zipIdx.map (fun entry => (Constants.propagateList entry.2 entry.1).1) := by
        rw [Constants.propagate]
        exact List.map_map
      change AllEvolve state (Constants.propagate state.lists).1
      rw [lists]
      exact allEvolve_zipIdx (fun i list => (Constants.propagateList i list).1) .annotated
  | hybridDependencies => exact .refl state
  | deadCode => exact allEvolve_removeDead state
  | reordering =>
      change AllEvolve state state.scheduleBalanced.1.lists
      rw [Workspace.scheduleBalanced]
      split
      · exact .refl state
      · exact allEvolve_reorder .balanced
  | constantFolding =>
      have lists : (Folding.fold state.lists).1 =
          state.lists.zipIdx.map (fun entry => (Folding.foldList entry.2 entry.1).1) := by
        rw [Folding.fold]
        exact List.map_map
      change AllEvolve state (Folding.fold state.lists).1
      rw [lists]
      exact allEvolve_zipIdx (fun i list => (Folding.foldList i list).1) .folded
  | earlyQuantum =>
      refine allEvolve_reorder (fun given => ?_)
      cases given
      exact .early
  | lateQuantum =>
      refine allEvolve_reorder (fun given => ?_)
      cases given
      exact .late

/-- So does a step in a sequence: one that is skipped leaves the lists, and so does forgetting the hybrid maps. -/
theorem allEvolve_dispatch {step : Step} {next : Workspace} {report : StepReport}
    (dispatched : step.dispatch state = .ok (next, report)) : AllEvolve state next.lists := by
  have evolved : next.lists = (step.perform state).1.lists ∨ next.lists = state.lists := by
    rw [Step.dispatch] at dispatched
    split at dispatched
    · split at dispatched
      · next performed =>
        cases dispatched
        rw [performed]
        refine .inl ?_
        split <;> rfl
      · cases dispatched
    · cases dispatched
      exact .inr rfl
  rcases evolved with lists | lists
  · exact lists ▸ allEvolve_perform step state
  · exact lists ▸ .refl state

end TwoLane.Execution
