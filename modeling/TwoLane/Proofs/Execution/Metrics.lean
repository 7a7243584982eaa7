import TwoLane.Proofs.Chain.Edits
import TwoLane.Proofs.Execution.Becoming
import TwoLane.Proofs.Schedule.Easing

/-! # What trimming costs

Removing dead code drops instructions, and folding only lets hybrid ones fall back to a single lane. So both make the work of
each list lighter, and with it the cost that is reported, whatever is known about the instructions.
-/

namespace TwoLane

namespace InstructionList

open Instruction (withoutLinks)

variable {list after last : InstructionList} {id : Nat} {node : Instruction}

/-! ## The work of a list -/

/-- The categories of the instructions that run, in their order. -/
def work (list : InstructionList) : List Category :=
  list.running.map Instruction.category

theorem orderly_ofNodes (block : Nat) (name : String) (nodes : List Instruction) : (ofNodes block name nodes).Orderly where
  numbered := by
    intro id node found
    rw [getElem?_ofNodes] at found
    obtain ⟨_, _, rfl⟩ := Option.map_eq_some_iff.mp found
    rfl
  order := List.nodup_range
  inside := fun id member => by simpa [length_ofNodes, order_ofNodes] using member

theorem Threaded.orderly {apart : List Nat} (threaded : list.Threaded apart) : list.Orderly :=
  ⟨threaded.numbered, threaded.order, threaded.inside⟩

theorem Orderly.map_id (orderly : list.Orderly) : list.running.map Instruction.id = list.order :=
  map_id_running orderly.numbered orderly.inside

theorem Orderly.size (orderly : list.Orderly) : list.size = list.running.length := by
  simp [InstructionList.size, ← orderly.map_id]

theorem Orderly.metrics (orderly : list.Orderly) : Metrics.ofList list = Metrics.ofWork list.work := by
  simp [Metrics.ofList, Metrics.ofWork, orderly.size, work, wallTime, List.countP_map, Function.comp_def]

theorem SameButLinks.work (same : SameButLinks list after) : after.work = list.work := by
  have views := congrArg (List.map Instruction.category) same.running
  simp only [List.map_map] at views
  exact views.symm

/-! ## Removing -/

theorem Orderly.of_removeAll (orderly : list.Orderly) {ids : List Nat} (removed : list.removeAll ids = .ok after) :
    after.Orderly ∧ after.work = (list.running.filter (fun node => !ids.contains node.id)).map Instruction.category := by
  have same := sameButLinks_of_removeAll removed
  exact ⟨same.orderly (orderly.filter _), by rw [same.work, work, running_filter orderly]⟩

theorem lighter_filter (nodes : List Instruction) (keeps : Instruction → Bool) :
    Lighter ((nodes.filter keeps).map Instruction.category) (nodes.map Instruction.category) := by
  induction nodes with
  | nil => exact .nil
  | cons node rest ih =>
      rw [List.filter_cons]
      split
      · exact .keep (.same _) ih
      · exact .drop _ ih

theorem filter_dropLast {nodes : List Instruction} (distinct : (nodes.map Instruction.id).Nodup) :
    nodes.filter (fun node => !((nodes.map Instruction.id).dropLast).contains node.id) = nodes.getLast?.toList := by
  rcases List.eq_nil_or_concat nodes with rfl | ⟨front, last, rfl⟩
  · rfl
  · simp only [List.concat_eq_append, List.map_append, List.map_cons, List.map_nil, List.dropLast_concat] at distinct ⊢
    have absent : ∀ node ∈ front, node.id ≠ last.id := by
      simpa using (List.nodup_append.mp distinct).2.2
    have gone : front.filter (fun node => !(front.map Instruction.id).contains node.id) = [] := by
      apply List.filter_eq_nil_iff.mpr
      intro node member
      simpa using ⟨node, member, rfl⟩
    simp only [List.filter_append, gone]
    simpa using absent

theorem Orderly.mem_controlIds (orderly : list.Orderly) (other : ¬ ∀ category ∈ list.work, category = .control)
    (member : node ∈ list.running) : node.id ∈ list.controlIds ↔ node.category = .control := by
  have fewer : (list.running.filter (fun node => node.category == .control)).length ≠ list.size := by
    rw [orderly.size]
    apply Nat.ne_of_lt
    apply List.length_filter_lt_length_iff_exists.mpr
    simpa [work] using other
  have ids : list.controlIds = (list.running.filter (fun node => node.category == .control)).map Instruction.id := by
    rw [controlIds]
    simp only [List.length_map, if_neg fewer]
  rw [ids, List.mem_map]
  constructor
  · rintro ⟨same, there, equal⟩
    obtain ⟨running, control⟩ := List.mem_filter.mp there
    have found := (id_of_mem_running orderly.numbered member).2
    have found' := (id_of_mem_running orderly.numbered running).2
    rw [equal, found] at found'
    cases found'
    simpa using control
  · intro control
    exact ⟨node, List.mem_filter.mpr ⟨member, by simpa using control⟩, rfl⟩

/-- Control instructions go, the last one excepted where there are no others. -/
theorem Orderly.removeControl (orderly : list.Orderly) :
    ∃ result, list.removeControl = .ok result ∧ Metrics.ofList result.1 = Metrics.ofWork (withoutControl list.work) := by
  obtain ⟨after, removed, answered⟩ := removeControl_eq_ok orderly.numbered
  obtain ⟨orderly', left⟩ := orderly.of_removeAll removed
  refine ⟨_, answered, ?_⟩
  rw [orderly'.metrics, left]
  apply congrArg
  by_cases control : ∀ category ∈ list.work, category = .control
  · have all : list.controlIds = (list.running.map Instruction.id).dropLast := by
      have every : list.running.filter (fun node => node.category == .control) = list.running := by
        simpa [work] using control
      simp [controlIds, every, orderly.size]
    rw [all, filter_dropLast (orderly.map_id ▸ orderly.order), withoutControl, if_pos (by simpa using control), work,
      List.getLast?_map]
    cases list.running.getLast? <;> rfl
  · rw [withoutControl, if_neg (by simpa using control), work, List.filter_map]
    apply congrArg
    apply List.filter_congr
    intro node member
    have ids := orderly.mem_controlIds control member
    rw [Bool.eq_iff_iff]
    simp [ids]

/-! ## Folding -/

/-- Whether a list is what another one becomes if hybrid instructions fall back to a single lane. -/
structure Lightens (list after : InstructionList) : Prop where
  order : after.order = list.order
  length : after.nodes.length = list.nodes.length
  nodes : ∀ {id : Nat} {node' : Instruction}, after.nodes[id]? = some node' →
    ∃ node, list.nodes[id]? = some node ∧ node'.id = node.id ∧ node.category.Lightens node'.category

theorem Lightens.refl (list : InstructionList) : list.Lightens list :=
  ⟨rfl, rfl, fun found => ⟨_, found, rfl, .same _⟩⟩

theorem Lightens.trans (first : list.Lightens after) (second : after.Lightens last) : list.Lightens last where
  order := second.order.trans first.order
  length := second.length.trans first.length
  nodes := by
    intro id node'' found
    obtain ⟨node', there, number, further⟩ := second.nodes found
    obtain ⟨node, own, number', lightens⟩ := first.nodes there
    exact ⟨node, own, number.trans number', lightens.trans further⟩

theorem Lightens.orderly (lightens : list.Lightens after) (orderly : list.Orderly) : after.Orderly where
  numbered := by
    intro id node' found
    obtain ⟨node, there, number, _⟩ := lightens.nodes found
    exact number.trans (orderly.numbered there)
  order := lightens.order ▸ orderly.order
  inside := by
    rw [lightens.order, lightens.length]
    exact orderly.inside

theorem Lightens.lighter (lightens : list.Lightens after) : Lighter after.work list.work := by
  have all : ∀ order : List Nat, Lighter ((order.filterMap after.get?).map Instruction.category)
      ((order.filterMap list.get?).map Instruction.category) := by
    intro order
    induction order with
    | nil => exact .nil
    | cons id rest ih =>
        cases found : after.nodes[id]? with
        | none =>
            have outside : list.nodes[id]? = none := by
              rw [List.getElem?_eq_none_iff] at found ⊢
              exact lightens.length ▸ found
            simpa [List.filterMap_cons, get?, found, outside] using ih
        | some node' =>
            obtain ⟨node, there, _, category⟩ := lightens.nodes found
            simpa [List.filterMap_cons, get?, found, there] using .keep category ih
  rw [work, running, lightens.order]
  exact all list.order

theorem Alters.lightens {change : Instruction → Instruction} (alters : Alters list after id change)
    (found : list.nodes[id]? = some node) (number : (change node).id = node.id)
    (category : node.category.Lightens (change node).category) : list.Lightens after where
  order := alters.order
  length := alters.length
  nodes := by
    intro j node' there
    obtain ⟨before, own, same | ⟨rfl, changed⟩⟩ := alters.exists_before found there
    · exact ⟨before, own, Instruction.id_congr same, Instruction.category_congr same ▸ .same _⟩
    · exact ⟨before, own, (Instruction.id_congr changed).trans number, Instruction.category_congr changed ▸ category⟩

end InstructionList

theorem EditedList.orderly (block : Nat) (name : String) (operations : List (Nat × Category × Operation))
    (edits : List Edit) : ((ofOperations block name operations).changeAll edits).list.Orderly :=
  (threaded_changeAll (threaded_ofOperations block name operations) edits).orderly

namespace Execution

open InstructionList (Alters alters_modify)

variable {list : InstructionList} {id : Nat} {node : Instruction}

theorem lightens_foldClassical (number : node.id = id) (found : list.nodes[id]? = some node) :
    list.Lightens (Folding.foldClassical list node).1 := by
  have noted : ∀ written, (Folding.noteWritten written node).id = node.id ∧
      (Folding.noteWritten written node).category = node.category := by
    intro written
    rw [noteWritten_eq]
    exact ⟨rfl, rfl⟩
  rcases foldClassical_cases list node with same | ⟨written, same⟩ | ⟨_, _, written, _, _, _, _, _, same⟩
  · rw [same]
    exact .refl list
  · rw [same, number]
    exact (alters_modify list id _).lightens found (noted written).1 ((noted written).2 ▸ .same _)
  · rw [same, number]
    exact (alters_renewed list id written _ _).lightens found (noted written).1 ((noted written).2 ▸ .same _)

theorem lightens_foldQuantum (number : node.id = id) (found : list.nodes[id]? = some node) (isEntry : Bool) :
    list.Lightens (Folding.foldQuantum list isEntry node).1 := by
  unfold Folding.foldQuantum
  rw [number]
  exact (alters_modify list id _).lightens found rfl (.same _)

theorem lightens_foldGate (number : node.id = id) (found : list.nodes[id]? = some node)
    (hybrid : node.category.isHybrid = true) (gate : String) (params : List Operand) (qubits : List String) :
    list.Lightens (Folding.foldGate list node gate params qubits).1 := by
  unfold Folding.foldGate
  dsimp only
  rw [number]
  split
  · apply Alters.lightens (((alters_modify list id _).detachAll _).modify settled withoutLinks_settled) found
    · rw [settled]
      split <;> rfl
    · rw [settled]
      split
      · exact .quantum hybrid
      · exact .same _
  · exact .refl list

theorem lightens_foldMeasurement (number : node.id = id) (found : list.nodes[id]? = some node)
    (hybrid : node.category.isHybrid = true) (isEntry : Bool) (qubit target : String) :
    list.Lightens (Folding.foldMeasurement list isEntry node qubit target).1 := by
  unfold Folding.foldMeasurement
  dsimp only
  rw [number]
  split
  · exact .refl list
  · next outcome _ =>
    exact ((alters_modify list id (fun n => moved n target (.ofBool outcome))).dropped (.qubit qubit)).lightens found
      rfl (.classical hybrid)

theorem lightens_foldNode (number : node.id = id) (found : list.nodes[id]? = some node) (isEntry : Bool) :
    list.Lightens (Folding.foldNode (.ofCategory node.category) list isEntry node).1 := by
  cases rule : FoldRule.ofCategory node.category with
  | classical => exact lightens_foldClassical number found
  | quantum => exact lightens_foldQuantum number found isEntry
  | hybrid =>
      have hybrid : node.category.isHybrid = true := by
        cases category : node.category <;> simp_all [FoldRule.ofCategory, Category.isHybrid]
      rw [Folding.foldNode, Folding.foldHybrid]
      split
      · exact lightens_foldGate number found hybrid _ _ _
      · exact lightens_foldMeasurement number found hybrid isEntry _ _
      · exact .refl list
  | keep => exact .refl list

theorem lightens_foldList (orderly : list.Orderly) (index : Nat) : list.Lightens (Folding.foldList index list).1 := by
  rw [Folding.foldList, foldAll_fst]
  generalize list.order = ids
  induction ids generalizing list with
  | nil => exact .refl list
  | cons id rest ih =>
      have step : list.Lightens (foldStep (index == 0) list id) := by
        rw [foldStep]
        split
        · next node found => exact lightens_foldNode (orderly.numbered found) found _
        · exact .refl list
      exact step.trans (ih (step.orderly orderly))

end Execution

/-! ## Reported cost -/

namespace Workspace

variable {state : Workspace} {lists lists' : List InstructionList}

/-- Whether lists are orderly and do lighter work than other ones. -/
def Eases (lists lists' : List InstructionList) : Prop :=
  List.Forall₂ (fun after list => after.Orderly ∧ Lighter after.work list.work) lists' lists

theorem exists_of_forall₂ {α β : Type} {related : α → β → Prop} {as : List α} {bs : List β}
    (all : List.Forall₂ related as bs) {a : α} (member : a ∈ as) : ∃ b ∈ bs, related a b := by
  induction all with
  | nil => cases member
  | cons first _ ih =>
      rcases List.mem_cons.mp member with rfl | later
      · exact ⟨_, List.mem_cons_self, first⟩
      · obtain ⟨b, there, same⟩ := ih later
        exact ⟨b, List.mem_cons_of_mem _ there, same⟩

theorem metrics_eq (orderly : ∀ list ∈ state.lists, list.Orderly) :
    state.metrics = .ok ((state.lists.map (fun list => Metrics.ofWork (withoutControl list.work))).foldl Metrics.add
      ⟨0, 0, 0⟩) := by
  have all : ∃ results, state.lists.mapM InstructionList.removeControl = .ok results ∧
      results.map (fun result => Metrics.ofList result.1) =
        state.lists.map (fun list => Metrics.ofWork (withoutControl list.work)) := by
    generalize state.lists = lists at orderly
    induction lists with
    | nil => exact ⟨[], rfl, rfl⟩
    | cons list rest ih =>
        obtain ⟨result, removed, cost⟩ := (orderly list List.mem_cons_self).removeControl
        obtain ⟨results, further, costs⟩ := ih (fun other member => orderly other (List.mem_cons_of_mem _ member))
        refine ⟨result :: results, ?_, by simp [cost, costs]⟩
        rw [List.mapM_cons, removed, further]
        rfl
  obtain ⟨results, removed, costs⟩ := all
  rw [metrics, removeControl, removed, ← costs, List.foldl_map]
  change Except.ok ((results.map Prod.fst).foldl _ _) = _
  rw [List.foldl_map]

theorem foldl_atMost {costs costs' : List Metrics} (each : List.Forall₂ Metrics.AtMost costs' costs)
    {start start' : Metrics} (first : start'.AtMost start) :
    (costs'.foldl Metrics.add start').AtMost (costs.foldl Metrics.add start) := by
  induction each generalizing start start' with
  | nil => exact first
  | cons here _ ih => exact ih (first.add here)

/-- Where the work of each list gets lighter, the reported cost does not grow. -/
theorem metrics_of_eases {readout readout' : List String} {hybrids hybrids' : List HybridMap}
    (orderly : ∀ list ∈ lists, list.Orderly) (eases : Eases lists lists') :
    ∃ before after, metrics ⟨lists, hybrids, readout⟩ = .ok before ∧ metrics ⟨lists', hybrids', readout'⟩ = .ok after ∧
      after.AtMost before := by
  have orderly' : ∀ list ∈ lists', list.Orderly := by
    intro after member
    obtain ⟨list, _, both⟩ := exists_of_forall₂ eases member
    exact both.1
  refine ⟨_, _, metrics_eq orderly, metrics_eq orderly', foldl_atMost ?_ ⟨Nat.le_refl _, Nat.le_refl _, Nat.le_refl _⟩⟩
  apply List.forall₂_map_left_iff.mpr
  apply List.forall₂_map_right_iff.mpr
  exact eases.imp (fun _ _ both => both.2.cost_atMost)

theorem eases_of_each (length : lists'.length = lists.length) (each : ∀ (i : Nat) (list : InstructionList),
    lists[i]? = some list → ∃ after, lists'[i]? = some after ∧ after.Orderly ∧ Lighter after.work list.work) :
    Eases lists lists' := by
  apply List.forall₂_of_length_eq_of_get length
  intro i inside' inside
  obtain ⟨after, there, eased⟩ := each i _ (List.getElem?_eq_getElem inside)
  cases (List.getElem?_eq_getElem inside').symm.trans there
  exact eased

theorem eases_foldConstants (orderly : ∀ list ∈ state.lists, list.Orderly) :
    Eases state.lists state.foldConstants.1.lists := by
  have folded : state.foldConstants.1.lists =
      state.lists.zipIdx.map (fun entry => (Folding.foldList entry.2 entry.1).1) := by
    simp [foldConstants, Folding.fold]
  rw [folded]
  apply eases_of_each (by simp)
  intro i list found
  have lightens := Execution.lightens_foldList (orderly list (List.mem_of_getElem? found)) i
  exact ⟨_, by simp [found], lightens.orderly (orderly list (List.mem_of_getElem? found)), lightens.lighter⟩

theorem eases_removeDead (orderly : ∀ list ∈ state.lists, list.Orderly) :
    (∃ findings, state.removeDead.2 = .ok findings) ∧ Eases state.lists state.removeDead.1.lists := by
  obtain ⟨⟨found, succeeds⟩, length, each⟩ := Liveness.removeDeadFrom_eq_ok (DeadCode.find state.lists state.readout) 0
    (fun i list there id member => Liveness.inside_of_mem_toRemove orderly there (Nat.zero_add i ▸ member))
  constructor
  · exact ⟨_, by simp only [removeDead, succeeds]; rfl⟩
  · apply eases_of_each length
    intro i list there
    obtain ⟨after, here, removed⟩ := each i list there
    obtain ⟨orderly', left⟩ := (orderly list (List.mem_of_getElem? there)).of_removeAll removed
    exact ⟨after, here, orderly', left ▸ InstructionList.lighter_filter _ _⟩

/-- Removing dead code and folding constants succeed and do not raise any figure of the reported cost, whatever the lists
    and whatever is noted at their occurrences. -/
theorem trimming_lowers_metrics (state : Workspace) (orderly : ∀ list ∈ state.lists, list.Orderly) :
    ∃ before, state.metrics = .ok before ∧
      (∃ findings after, state.removeDead.2 = .ok findings ∧ state.removeDead.1.metrics = .ok after ∧
        after.AtMost before) ∧
      ∃ findings after, state.foldConstants.2 = .ok findings ∧ state.foldConstants.1.metrics = .ok after ∧
        after.AtMost before := by
  obtain ⟨⟨findings, succeeds⟩, removed⟩ := eases_removeDead orderly
  obtain ⟨before, after, reported, reported', atMost⟩ := metrics_of_eases orderly removed
  obtain ⟨before', after', again, reported'', atMost'⟩ := metrics_of_eases orderly (eases_foldConstants orderly)
  cases reported.symm.trans again
  exact ⟨before, reported, ⟨findings, after, succeeds, reported', atMost⟩, _, after', rfl, reported'', atMost'⟩

/-- A store that nothing reads, a measurement of a qubit that is still as it was at first, a gate, and a list that control
    cannot reach. -/
def trimmable : Workspace :=
  ofLists
    [.ofNodes 0 "start"
      [.ofOperation 0 .control (.label "top"), .ofOperation 1 .classical (.classical "MOVE" [.address "t", .literal (.ofBool true)]),
        .ofOperation 2 .quantumToClassical (.measure "0" (some "ro")), .ofOperation 3 .quantum (.gate "H" [] ["1"])],
      .ofNodes 1 "behind" [.ofOperation 4 .control .halt]]
    ["ro"]

theorem orderly_trimmable : ∀ list ∈ trimmable.lists, list.Orderly := by
  intro list member
  simp only [trimmable, ofLists, List.mem_cons, List.not_mem_nil, or_false] at member
  rcases member with rfl | rfl <;> exact InstructionList.orderly_ofNodes _ _ _

theorem trimmable_gets_cheaper :
    ∃ before removed folded, trimmable.metrics = .ok before ∧ trimmable.removeDead.1.metrics = .ok removed ∧
      trimmable.foldConstants.1.metrics = .ok folded ∧ removed.AtMost before ∧ folded.AtMost before ∧
      [before, removed, folded] = [⟨4, 2, 4⟩, ⟨1, 1, 1⟩, ⟨4, 1, 3⟩] := by
  obtain ⟨before, reported, ⟨_, removed, _, afterRemoval, less⟩, _, folded, _, afterFolding, less'⟩ :=
    trimming_lowers_metrics trimmable orderly_trimmable
  refine ⟨before, removed, folded, reported, afterRemoval, afterFolding, less, less', ?_⟩
  have figures : [trimmable.metrics, trimmable.removeDead.1.metrics, trimmable.foldConstants.1.metrics].map
      Except.toOption = [some ⟨4, 2, 4⟩, some ⟨1, 1, 1⟩, some ⟨4, 1, 3⟩] := by decide +kernel
  rw [reported, afterRemoval, afterFolding] at figures
  simpa [Except.toOption] using figures

end Workspace

end TwoLane
